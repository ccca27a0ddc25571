import Midend.Proofs.Lower.Function
import Mathlib.Data.List.Pairwise

/-! Terminators in blocks that are filled by any calls of the builder. Instructions may be put in
anywhere, and a call is checked against the last instruction of the block only. So each block has
one terminator at most, and nothing behind it, as long as terminators are put in at the end. -/
namespace Midend
open List Graph
namespace Graph
variable {g mid after : Graph} {b v : ValueId}
variable {ty : Ty} {f : ValueId}

def EndsOnce (g : Graph) (block : ValueId) : Prop := ∀ inst ∈ (g.code block).dropLast, ¬ g.isTerminator inst

private theorem forall_dropLast_iff {α : Type} {P : α → Prop} (items : List α) :
    (∀ item ∈ items.dropLast, P item) ↔ items.Pairwise fun first _ => P first := by
  induction items with
  | nil => simp
  | cons first tl ih =>
    cases tl with
    | nil => simp
    | cons second tl =>
      rw [dropLast_cons_cons, pairwise_cons, ← ih, forall_mem_cons]
      exact and_congr_left' ⟨fun h _ _ => h, fun h => h second mem_cons_self⟩

private theorem endsOnce_iff : g.EndsOnce b ↔ (g.code b).Pairwise fun first _ => ¬ g.isTerminator first :=
  forall_dropLast_iff _

/-- A terminator with nothing behind it is what the block ends in. -/
theorem EndsOnce.lastOf (once : g.EndsOnce b) (mem : v ∈ g.code b) (terminates : g.isTerminator v) :
    g.lastOf b = some v := by
  obtain ⟨front, behind, cs⟩ := append_of_mem mem
  have last : behind = [] := by
    rw [endsOnce_iff, cs, pairwise_append, pairwise_cons] at once
    by_contra more
    exact once.2.1.1 _ (head_mem more) terminates
  rw [Graph.lastOf, cs, last, getLast?_concat, Option.filter_some, if_pos terminates]

structure Listed (g : Graph) : Prop where
  consistent : g.Consistent
  inside : ∀ block, ∀ inst ∈ g.code block, inst.index < g.values.size

structure Fills (g after : Graph) : Prop where
  listed : after.Listed
  code : ∀ block, (g.code block).Sublist (after.code block)
  terminator : ∀ v, g.isTerminator v → after.isTerminator v

private theorem Fills.endsOnce (fills : g.Fills after) (once : after.EndsOnce b) : g.EndsOnce b := by
  rw [endsOnce_iff] at once ⊢
  exact (once.sublist (fills.code b)).imp fun inner terminates => inner (fills.terminator _ terminates)

structure Closes (g after : Graph) : Prop extends g.Fills after where
  once : (∀ block, g.EndsOnce block) → ∀ block, after.EndsOnce block

namespace Closes

theorem refl (mem : g.Listed) : g.Closes g :=
  ⟨⟨mem, fun _ => .refl _, fun _ => id⟩, id⟩

theorem trans (first : g.Closes mid) (second : mid.Closes after) : g.Closes after :=
  ⟨⟨second.listed, fun b => (first.code b).trans (second.code b),
    fun v h => second.terminator v (first.terminator v h)⟩, fun h => second.once (first.once h)⟩

end Closes

structure SameCode (g after : Graph) : Prop where
  consistent : after.Consistent
  size : g.values.size ≤ after.values.size
  code : ∀ block, after.code block = g.code block
  opcode? : ∀ v, after.opcode? v = g.opcode? v

theorem SameCode.closes (eq : g.SameCode after) (isIn : g.Listed) : g.Closes after := by
  have terminators : ∀ v, after.isTerminator v = g.isTerminator v := fun v => by
    rw [isTerminator, eq.opcode?, isTerminator]
  refine ⟨⟨⟨eq.consistent, ?_⟩, fun b => (eq.code b).symm ▸ .refl _,
    fun v => (terminators v).symm ▸ id⟩, ?_⟩
  · intro b i mem
    rw [eq.code] at mem
    exact Nat.lt_of_lt_of_le (isIn.inside b i mem) eq.size
  · intro once b
    simpa only [EndsOnce, eq.code, terminators] using once b

theorem Added.sameCode {k : Kind} (added : g.Added after v k ty) (empty : k.insts = [])
    (plain : k.opcode? = none) : g.SameCode after := by
  refine ⟨added.consistent, by rw [added.size]; exact Nat.le_succ _, added.code empty, fun w => ?_⟩
  rw [opcode?, added.kind? w, opcode?]
  split
  next eq =>
    rw [eq, added.fresh, kind?_fresh]
    simpa using plain
  next => rfl

theorem Rewired.sameCode {refs : ValueId → List (Option ValueId) → List (Option ValueId)}
    (rewired : g.Rewired after refs) : g.SameCode after := by
  refine ⟨rewired.consistent, Nat.le_of_eq rewired.size.symm, fun w => ?_, fun w => ?_⟩
  · rw [code, rewired.kind?, code]
  · rw [opcode?, rewired.kind?, opcode?]

theorem sameCode_of_blockAdded {n : Option String} (add : Builder.BlockAdded g after b f n) :
    g.SameCode after := by
  refine ⟨add.consistent, by rw [add.size]; exact Nat.le_succ _, add.code, fun w => ?_⟩
  rw [opcode?, add.kind? w, opcode?]
  split
  next eq =>
    rw [eq, add.fresh, kind?_fresh]
    rfl
  next => rfl

theorem sameCode_of_functionAdded {n : String} {argNames : List String} {args : List ValueId}
    (added : Builder.FunctionAdded g after f n ty argNames args) : g.SameCode after := by
  have older : ∀ w : ValueId, g.values.size ≤ w.index → g.kind? w = none := fun w new => by
    rw [kind?_eq_bare, bare_of_ge new]
    rfl
  refine ⟨added.consistent, added.framed.size, fun w => ?_, fun w => ?_⟩
  · rcases Nat.lt_or_ge w.index g.values.size with old | new
    · rw [code, added.framed.kind? w old, code]
    · rw [added.code_nil new, code, older w new]
      rfl
  · rcases Nat.lt_or_ge w.index g.values.size with old | new
    · rw [opcode?, added.framed.kind? w old, opcode?]
    · rw [opcode?, opcode?, older w new]
      cases hit : after.kind? w with
      | none => rfl
      | some k => rcases added.kind_new new hit with rfl | ⟨_, _, rfl⟩ <;> rfl

end Graph

namespace Builder
variable {m after : Module} {i : ValueId}
variable {ty : Ty}

namespace Inserted
variable {op : Opcode} {ty : Ty} {ops : List ValueId} {attr : Attr} {pt : InsertPoint} {d : Block}

section
variable (put : Inserted m after i op ty ops attr pt d)
include put

theorem fills (isIn : m.graph.Listed) : m.graph.Fills after.graph := by
  refine ⟨⟨put.consistent, ?_⟩, ?_, ?_⟩
  · intro b v mem
    rw [put.size]
    rcases (put.mem_code b v).1 mem with ⟨_, rfl⟩ | older
    · rw [put.fresh]
      exact Nat.lt_succ_self _
    · exact Nat.lt_succ_of_lt (isIn.inside b v older)
  · intro b
    rw [put.code]
    split
    · exact sublist_insertIdx ..
    · exact .refl _
  · intro v terminates
    obtain ⟨op', hit, _⟩ := opcode?_of_isTerminator terminates
    rwa [Graph.isTerminator, put.opcode? (put.ne_of_lt (lt_of_opcode? hit))]

theorem isTerminator : after.graph.isTerminator i = op.isTerminator := by
  rw [Graph.isTerminator, put.opcode?_self]
  rfl

/-- The check before an instruction is put in is enough, for a terminator only at the end of a block. -/
theorem once (isIn : m.graph.Listed) (last : op.isTerminator → pt.index = (m.graph.code pt.block).length)
    (once : ∀ b, m.graph.EndsOnce b) (b : ValueId) : after.graph.EndsOnce b := by
  have eq : ∀ v ∈ m.graph.code b, after.graph.isTerminator v = m.graph.isTerminator v := fun v mem => by
    rw [Graph.isTerminator, put.opcode? (put.ne_of_lt (isIn.inside b v mem)), Graph.isTerminator]
  by_cases isHere : b = pt.block
  · subst isHere
    obtain ⟨pre, now⟩ := put.code_split
    have apart := endsOnce_iff.1 (once pt.block)
    rw [pre, pairwise_append] at apart
    obtain ⟨front, behind, across⟩ := apart
    rw [endsOnce_iff, now, pairwise_append, pairwise_cons]
    have taken : ∀ v ∈ (m.graph.code pt.block).take pt.index, v ∈ m.graph.code pt.block :=
      fun _ => mem_of_mem_take
    have dropped : ∀ v ∈ (m.graph.code pt.block).drop pt.index, v ∈ m.graph.code pt.block :=
      fun _ => mem_of_mem_drop
    refine ⟨front.imp_of_mem fun mem _ => eq _ (taken _ mem) ▸ id, ⟨?_, ?_⟩, ?_⟩
    · -- Behind a terminator there is nothing, because it was put in at the end.
      intro v mem terminates
      rw [put.isTerminator] at terminates
      rw [last terminates, drop_length] at mem
      cases mem
    · exact behind.imp_of_mem fun mem _ => eq _ (dropped _ mem) ▸ id
    · intro v mem w later terminates
      rw [eq v (taken v mem)] at terminates
      obtain ⟨_, inner⟩ := put.allowed v ((once pt.block).lastOf (taken v mem) terminates)
      rw [← code_of_kind? put.block] at inner
      have more : (m.graph.code pt.block).drop pt.index ≠ [] := by
        simpa using inner
      exact across v mem _ (head_mem more) terminates
  · intro v mem
    rw [put.code, if_neg isHere] at mem
    rw [eq v ((dropLast_sublist _).subset mem)]
    exact once b v mem

/-- A terminator that is put in before other instructions is not the last one. -/
theorem last (terminates : op.isTerminator)
    (once : after.graph.EndsOnce pt.block) : pt.index = (m.graph.code pt.block).length := by
  rw [endsOnce_iff, put.code_split.2, pairwise_append, pairwise_cons] at once
  refine Nat.le_antisymm (code_of_kind? put.block ▸ put.bound) (drop_eq_nil_iff.1 ?_)
  by_contra more
  exact once.2.1.1 _ (head_mem more) (put.isTerminator.trans terminates)

theorem closes (mem : m.graph.Listed) (inner : op.isTerminator = false) : m.graph.Closes after.graph :=
  ⟨put.fills mem, put.once mem fun terminates => by simp [inner] at terminates⟩

end

end Inserted

private theorem insertInst_closes {op : Opcode} {ops : List ValueId} {attr : Attr} (mem : m.graph.Listed)
    (inner : op.isTerminator = false) (done : insertInst op ty ops attr m = .ok (i, after)) :
    m.graph.Closes after.graph := by
  obtain ⟨_, _, put⟩ := insertInst_ok mem.consistent done
  exact put.closes mem inner

private theorem addValue_closes {k : Kind} {lim : Option Nat} (mem : m.graph.Listed) (empty : k.insts = [])
    (plain : k.opcode? = none) (done : addValue k ty lim m = .ok (i, after)) :
    m.graph.Closes after.graph := by
  obtain ⟨rfl, rfl⟩ := addValue_ok.1 done
  exact ((mem.consistent.add_added ..).sameCode empty plain).closes mem

private theorem closes_upkeep :
    Upkeep (fun m => m.graph.Listed) (fun m after => m.graph.Closes after.graph) fun _ _ => True where
  refl := .refl
  trans := .trans
  holds closes := closes.listed
  stays _ _ := trivial
  insert mem inner _ _ done := ⟨insertInst_closes mem inner done, trivial⟩
  constant mem done := ⟨addValue_closes mem rfl rfl done, trivial⟩

inductive Call where
  | function (name : String) (ty : Ty) (argNames : List String)
  | block (func : ValueId) (name : Option String)
  | enter (block : ValueId)
  | enterAt (block : ValueId) (index : Nat)
  | constInt (value : Int64) (ty : Ty)
  | constStr (value : String)
  | argument (index : Nat) (name : String) (ty : Ty)
  | global (name : String) (ty : Ty) (initial : Option ValueId)
  | alloca (ty : Ty) (name : Option String)
  | load (ptr : ValueId)
  | store (value ptr : ValueId)
  | valueOf (value : ValueId)
  | assign (slot source : ValueId)
  | cast (op : Opcode) (value : ValueId) (ty : Ty)
  | convert (value : ValueId) (ty : Ty)
  | binary (op : Opcode) (lhs rhs : ValueId)
  | icmp (predicate : Predicate) (lhs rhs : ValueId)
  | call (callee : ValueId) (args : List ValueId)
  | jump (target : ValueId)
  | branch (condition thenBlock elseBlock : ValueId)
  | ret (value : Option ValueId)

namespace Call

def make : Call → Builder ValueId
  | .function name ty argNames => createFunction name ty argNames
  | .block func name => createBlock func name
  | .enter place => do setInsertPoint place; return place
  | .enterAt place index => do setInsertPointAt place index; return place
  | .constInt value ty => Builder.constInt value ty
  | .constStr value => Builder.constStr value
  | .argument index name ty => Builder.argument index name ty
  | .global name ty initial => createGlobal name ty initial
  | .alloca ty name => Builder.alloca ty name
  | .load ptr => Builder.load ptr
  | .store value ptr => Builder.store value ptr
  | .valueOf value => Builder.valueOf value
  | .assign slot source => Builder.assign slot source
  | .cast op value ty => Builder.cast op value ty
  | .convert value ty => Builder.convert value ty
  | .binary op lhs rhs => Builder.binary op lhs rhs
  | .icmp predicate lhs rhs => Builder.icmp predicate lhs rhs
  | .call callee args => Builder.call callee args
  | .jump target => Builder.jump target
  | .branch condition thenBlock elseBlock => Builder.branch condition thenBlock elseBlock
  | .ret value => Builder.ret value

def run (call : Call) : Builder Unit := discard call.make

def terminates : Call → Bool
  | .jump _ | .branch _ _ _ | .ret _ => true
  | _ => false

end Call

variable {call : Call} {res : Unit} {calls : List Call}

theorem Call.run_ok (done : call.run m = .ok (res, after)) :
    ∃ v, call.make m = .ok (v, after) := by
  obtain ⟨v, made, _⟩ := map_ok.1 (show ((fun _ => ()) <$> call.make) m = .ok ((), after) from done)
  exact ⟨v, made⟩

private theorem createGlobal_closes {n : String} {initial : Option ValueId} (mem : m.graph.Listed)
    (done : createGlobal n ty initial m = .ok (i, after)) : m.graph.Closes after.graph := by
  have run := addValue_bind_ok.1 done
  have add := mem.consistent.add_added (.global n) (.pointer ty) (some 1)
  have first := (add.sameCode rfl rfl).closes mem
  cases initial with
  | none =>
    have run := modify_bind_ok.1 run
    obtain ⟨_, rfl⟩ := pure_ok.1 run
    exact first
  | some val =>
    obtain ⟨_, mid, adding, run⟩ := bind_ok.1 run
    obtain ⟨wired, _⟩ := addOperand_ok add.consistent adding
    have run := modify_bind_ok.1 run
    obtain ⟨_, rfl⟩ := pure_ok.1 run
    exact first.trans (wired.sameCode.closes first.listed)

def AtEnd (m : Module) : Prop :=
  ∃ point, m.insertPoint = some point ∧ point.index = (m.graph.code point.block).length

/-- Every call but those that make terminators. -/
theorem Call.closes (inner : call.terminates = false) (mem : m.graph.Listed)
    (done : call.make m = .ok (i, after)) : m.graph.Closes after.graph := by
  have eq : m.graph.Closes m.graph := .refl mem
  cases call with
  | function n ty argNames =>
    obtain ⟨_, added, _⟩ := createFunction_ok mem.consistent done
    exact (sameCode_of_functionAdded added).closes mem
  | block f n =>
    exact (sameCode_of_blockAdded (createBlock_ok mem.consistent done).1).closes mem
  | enter place =>
    obtain ⟨_, mid, entered, run⟩ := bind_ok.1 done
    obtain ⟨_, rfl⟩ := pure_ok.1 run
    rw [(setInsertPoint_ok entered).2]
    exact eq
  | enterAt place index =>
    obtain ⟨_, mid, entered, run⟩ := bind_ok.1 done
    obtain ⟨_, rfl⟩ := pure_ok.1 run
    obtain ⟨_, _, entered⟩ := ask_bind_ok.1 entered
    rw [modify_ok.1 (ensure_bind_ok.1 entered).2]
    exact eq
  | constInt val ty | constStr val | argument index n ty =>
    exact addValue_closes mem rfl rfl done
  | global n ty initial =>
    exact createGlobal_closes mem done
  | alloca ty n =>
    obtain ⟨_, _, _, allocated⟩ := alloca_ok mem.consistent done
    have put := allocated.inserted
    exact put.closes mem rfl
  | load ptr =>
    exact (closes_upkeep.load mem trivial done).1
  | store val ptr =>
    exact closes_upkeep.store mem trivial trivial done
  | valueOf val =>
    exact (closes_upkeep.valueOf mem trivial done).1
  | assign slot source =>
    exact (closes_upkeep.assign mem trivial trivial done).1
  | cast op val ty =>
    obtain ⟨isCast, made⟩ := ensure_bind_ok.1 done
    exact insertInst_closes mem (by cases op <;> first | rfl | cases isCast) made
  | convert val ty =>
    exact (closes_upkeep.convert mem trivial done).1
  | binary op lhs rhs =>
    exact (closes_upkeep.binary mem trivial trivial done).1
  | icmp pred lhs rhs =>
    exact (closes_upkeep.icmp mem trivial trivial done).1
  | call callee args =>
    exact (closes_upkeep.call mem trivial (fun _ _ => trivial) done).1
  | jump | branch | ret => cases inner

/-- A terminator is put in at the insertion point, and beyond that only references change. -/
theorem Call.put (outer : call.terminates) (mem : m.graph.Listed) (done : call.make m = .ok (i, after)) :
    ∃ mid i op ops pt d, op.isTerminator ∧
      Inserted m mid i op .void ops .none pt d ∧ mid.graph.Closes after.graph := by
  cases call with
  | jump dest =>
    obtain ⟨_, pt, d, mid, put, wired, _⟩ := jump_ok mem.consistent done
    exact ⟨mid, _, _, _, pt, d, rfl, put, wired.sameCode.closes (put.fills mem).listed⟩
  | branch cond thenBlock elseBlock =>
    obtain ⟨_, pt, d, mid, put, wired, _⟩ := branch_ok mem.consistent done
    exact ⟨mid, _, _, _, pt, d, rfl, put, wired.sameCode.closes (put.fills mem).listed⟩
  | ret val =>
    obtain ⟨pt, d, put⟩ := insertInst_ok mem.consistent done
    exact ⟨after, _, _, _, pt, d, rfl, put, .refl (put.fills mem).listed⟩
  | _ => cases outer

/-- A call keeps blocks ended once just if a terminator goes to an end. -/
theorem Call.step (mem : m.graph.Listed) (done : call.run m = .ok (res, after)) :
    after.graph.Listed ∧ ((∀ b, after.graph.EndsOnce b) ↔
      (∀ b, m.graph.EndsOnce b) ∧ (call.terminates → AtEnd m)) := by
  obtain ⟨v, made⟩ := Call.run_ok done
  cases isTerminator : call.terminates with
  | false =>
    have closes := call.closes isTerminator mem made
    exact ⟨closes.listed, fun once => ⟨fun b => closes.endsOnce (once b), nofun⟩, fun once => closes.once once.1⟩
  | true =>
    obtain ⟨mid, i, op, ops, pt, d, isOp, put, closes⟩ := call.put isTerminator mem made
    have fills := put.fills mem
    refine ⟨closes.listed, fun once => ?_, fun ⟨once, last⟩ => closes.once ?_⟩
    · have between := fun b => closes.endsOnce (once b)
      exact ⟨fun b => fills.endsOnce (between b), fun _ => ⟨pt, put.here, put.last isOp (between _)⟩⟩
    · obtain ⟨point', here, isLast⟩ := last rfl
      obtain rfl : point' = pt := Option.some.inj (here.symm.trans put.here)
      exact put.once mem (fun _ => isLast) once

/-- Every terminator of a sequence of calls is put in at the end of its block. -/
def PutLast (calls : List Call) (m : Module) : Prop :=
  ∀ earlier call later middle, calls = earlier ++ call :: later → call.terminates →
    earlier.forM Call.run m = .ok ((), middle) → AtEnd middle

private theorem putLast_cons (done : call.run m = .ok ((), after)) :
    PutLast (call :: calls) m ↔ (call.terminates → AtEnd m) ∧ PutLast calls after := by
  constructor
  · intro last
    refine ⟨fun terminates => last [] call calls m rfl terminates rfl, ?_⟩
    intro pre other later mid split terminates ran
    exact last (call :: pre) other later mid (by rw [split]; rfl) terminates (bind_ok.2 ⟨(), after, done, ran⟩)
  · rintro ⟨first, tl⟩ pre other later mid split terminates ran
    cases pre with
    | nil =>
      obtain ⟨rfl, rfl⟩ := List.cons.inj split
      obtain ⟨_, rfl⟩ := pure_ok.1 ran
      exact first terminates
    | cons eq pre =>
      obtain ⟨rfl, others⟩ := List.cons.inj split
      obtain ⟨_, next, one, more⟩ := bind_ok.1 ran
      obtain rfl : after = next := congrArg Prod.snd (Except.ok.inj (done.symm.trans one))
      exact tl pre other later mid others terminates more

private theorem endsOnce_forM_iff (mem : m.graph.Listed) (done : calls.forM Call.run m = .ok ((), after)) :
    (∀ b, after.graph.EndsOnce b) ↔ (∀ b, m.graph.EndsOnce b) ∧ PutLast calls m := by
  induction calls generalizing m with
  | nil =>
    obtain ⟨_, rfl⟩ := pure_ok.1 done
    exact (and_iff_left fun pre call later mid split => by simp at split).symm
  | cons call calls ih =>
    obtain ⟨_, mid, one, more⟩ := bind_ok.1 done
    obtain ⟨listed', once⟩ := Call.step mem one
    rw [ih listed' more, once, putLast_cons one, and_assoc]

/-- After any calls that raise no fault, each block has one terminator at most, as its last instruction,
exactly if the calls put in every terminator at the end of its block. -/
theorem terminators_last_iff_put_last {name : String} {calls : List Call}
    (done : calls.forM Call.run { name } = .ok ((), after)) :
    (∀ block, after.graph.EndsOnce block) ↔ PutLast calls { name } := by
  have empty : ∀ block, ({} : Graph).code block = [] := fun _ => rfl
  rw [endsOnce_forM_iff ⟨.empty, fun block inst listed => by rw [empty] at listed; cases listed⟩ done]
  exact and_iff_right fun block inst listed => by rw [empty] at listed; cases listed

def fillsBefore : List Call :=
  [.function "f" (.func [] .void) [], .block ⟨0⟩ (some "entry"), .enter ⟨1⟩, .ret none, .alloca .int32 none,
    .enterAt ⟨1⟩ 1, .load ⟨3⟩]

theorem terminators_last_of_before : ∃ after, fillsBefore.forM Call.run { name := "m" } = .ok ((), after) ∧
    (after.graph.code ⟨1⟩).map after.graph.opcode? = [some .alloca, some .load, some .ret] ∧
    (∀ block, after.graph.EndsOnce block) ∧ PutLast fillsBefore { name := "m" } := by
  obtain ⟨⟨_, after⟩, done, isRead⟩ := @ok_of_toOption_map _ _ _ (fillsBefore.forM Call.run { name := "m" })
    (fun pair => ((pair.2.graph.code ⟨1⟩).map pair.2.graph.opcode?,
      (List.range pair.2.graph.values.size).all fun index =>
        (pair.2.graph.code ⟨index⟩).dropLast.all fun inst => !pair.2.graph.isTerminator inst))
    ([some .alloca, some .load, some .ret], true) (by decide +kernel)
  obtain ⟨code, ends⟩ := Prod.ext_iff.1 isRead
  have once : ∀ block, after.graph.EndsOnce block := by
    intro block inst listed
    have inside := lt_of_kind? (block_of_mem_code ((dropLast_sublist _).subset listed)).choose_spec
    have all := all_eq_true.1 ends block.index (mem_range.2 inside)
    simpa using all_eq_true.1 all inst listed
  exact ⟨after, done, code, once, (terminators_last_iff_put_last done).1 once⟩

def returnsTwice : List Call :=
  [.function "f" (.func [] .void) [], .block ⟨0⟩ (some "entry"), .enter ⟨1⟩, .alloca .int32 none,
    .enterAt ⟨1⟩ 0, .ret none, .enter ⟨1⟩, .ret none]

/-- Two terminators in one block, one of them before another instruction. -/
theorem second_terminator_passes : ∃ after, returnsTwice.forM Call.run { name := "m" } = .ok ((), after) ∧
    (after.graph.code ⟨1⟩).map after.graph.opcode? = [some .ret, some .alloca, some .ret] ∧
    ¬ after.graph.EndsOnce ⟨1⟩ := by
  obtain ⟨⟨_, after⟩, done, isRead⟩ := @ok_of_toOption_map _ _ _ (returnsTwice.forM Call.run { name := "m" })
    (fun pair => ((pair.2.graph.code ⟨1⟩).map pair.2.graph.opcode?,
      (pair.2.graph.code ⟨1⟩).dropLast.any pair.2.graph.isTerminator))
    ([some .ret, some .alloca, some .ret], true) (by decide +kernel)
  obtain ⟨code, early⟩ := Prod.ext_iff.1 isRead
  obtain ⟨inst, listed, terminates⟩ := any_eq_true.1 early
  exact ⟨after, done, code, fun once => once inst listed terminates⟩

end Builder
end Midend
