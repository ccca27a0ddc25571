import Midend.Proofs.Lower.Function
import Midend.Proofs.Meaning.Blocks
import Midend.Proofs.Meaning.Call

/-! Lowering a function gives its code: the entry with the slots of the parameters, the body, and
the exit with the return. -/
namespace Midend
open List Builder Graph

namespace Graph

theorem Receives.mono {g t : Graph} {entry origin : ValueId} {pairs : List (Param × ValueId)}
    {ls cs : List ValueId} (receives : g.Receives entry pairs ls cs) (grows : g.Grows origin t) :
    t.Receives entry pairs ls cs := by
  induction receives with
  | nil => exact .nil
  | cons k ty stores ops _ ih =>
    refine .cons (grows.inst k) (grows.ty? _ _ ty) (grows.inst stores) ?_ ih
    rw [grows.operandsOf _ _ stores]
    exact ops

end Graph

def Site.global (site : Site) (name : String) : Option ValueId :=
  (site.outermost.lookup name).filter fun v =>
    match site.base.kind? v, site.base.ty? v with
    | some (.global own), some (.pointer ty) => own == name && ty.isInteger
    | _, _ => false

theorem Site.global_eq_some {u : Site} {n : String} {v : ValueId} :
    u.global n = some v ↔ u.outermost.lookup n = some v ∧ u.base.kind? v = some (.global n) ∧
      ∃ ty, u.base.ty? v = some (.pointer ty) ∧ ty.isInteger := by
  rw [Site.global, Option.filter_eq_some_iff]
  refine and_congr_right fun _ => ?_
  constructor
  · intro h
    split at h
    next own ty isGlobal isTy =>
      rw [Bool.and_eq_true, beq_iff_eq] at h
      exact ⟨h.1 ▸ isGlobal, ty, isTy, h.2⟩
    next => cases h
  · intro ⟨isGlobal, ty, isTy, integer⟩
    rw [isGlobal, isTy]
    simpa using integer

namespace Lower
open Site
variable {u : Site} {st : FunctionState} {ls : List ValueId} {sc : Scope} {s : Lowering}
  {broken : Lowering → Prop}

structure Entering (site : Site) (state : FunctionState) (slots : List ValueId) (scope : Scope) (s : Lowering) :
    Prop where
  building : site.Building s.module.symbols state s.module site.entry
  nested : 0 < s.module.symbols.inner.length
  opened : s.module.graph.lastOf site.entry = none
  seated : site.Seated state slots scope s.module

namespace Entering
variable {n : String} {ty : Ty} {slot : ValueId}

section
variable (entering : Entering u st ls sc s)
include entering

theorem passed {t : Lowering} (passed : u.Passed s.module.symbols st s u.entry t u.entry) :
    Entering u st ls sc t := by
  have ns := passed.building.names
  refine ⟨?_, ?_, passed.opened entering.opened, entering.seated.grown passed.advances.grows ns⟩
  · rw [ns]
    exact passed.building
  · rw [ns]
    exact entering.nested

theorem alloca : Ends (build (Builder.alloca ty (some n))) s broken fun slot t =>
      (u.Passed s.module.symbols st s u.entry t u.entry ∧ t.module.graph.Plain slot) ∧
        u.Free st ls t.module.graph slot ty ∧
        t.module.graph.code u.entry = s.module.graph.code u.entry ++ [slot] ∧
        t.module.graph.kind? slot = some (.inst ⟨.alloca, u.entry, .alloca (some n)⟩) := by
  refine .build fun slot m done => ?_
  have made := entering.building
  obtain ⟨str, plain⟩ := made.alloca done
  obtain ⟨state', d, current, allocated⟩ := alloca_ok made.skeleton.consistent done
  obtain rfl : st = state' := Option.some.inj (made.current.symm.trans current)
  rw [made.entry] at allocated
  refine ⟨⟨str.passed, plain⟩, entering.seated.free made done, ?_, allocated.inserted.kind?_self⟩
  refine allocated.inserted.code_end ?_
  show Builder.slotPosition s.module.graph u.entry = _
  rw [Builder.slotPosition, entering.opened]
  rfl

theorem store {val : ValueId} (plain : s.module.graph.Plain val) (plainSlot : s.module.graph.Plain slot) :
    Ends (build (Builder.store val slot)) s broken fun i t =>
      u.Passed s.module.symbols st s u.entry t u.entry ∧
        t.module.graph.code u.entry = s.module.graph.code u.entry ++ [i] ∧
        t.module.graph.kind? i = some (.inst ⟨.store, u.entry, .none⟩) ∧
        t.module.graph.operandsOf i = [some val, some slot] := by
  refine .build fun i m done => ?_
  have made := entering.building
  have str := upkeep.store made plain plainSlot done
  obtain ⟨_, _, _, inserting⟩ := store_ok done
  obtain ⟨pt, d, put⟩ := insertInst_ok made.skeleton.consistent inserting
  obtain rfl := made.point_eq put
  refine ⟨str.passed, put.code_end rfl, put.kind?_self, ?_⟩
  exact (put.operandsOf i).trans (if_pos rfl)

theorem declare (plain : s.module.graph.Plain slot) (free : u.Free st ls s.module.graph slot ty) :
    Ends (build (Builder.declare n slot)) s broken fun _ t =>
      Entering u st (ls ++ [slot]) (sc.declare n ty) t ∧
        u.Passed t.module.symbols st s u.entry t u.entry ∧ t.module.graph = s.module.graph := by
  refine .build fun _ m done => ?_
  obtain rfl := modify_ok.1 done
  obtain ⟨declared, eq⟩ := entering.building.declare entering.nested plain n
  refine ⟨⟨declared, eq ▸ entering.nested, entering.opened, entering.seated.declare entering.nested free⟩, ?_, rfl⟩
  exact ⟨⟨declared, .refl _ _ _, by simp, nodup_nil, rfl⟩, id⟩

theorem paramSlot {param : Param} {arg : ValueId} (plain : s.module.graph.Plain arg) :
    Ends (Lower.paramSlot param arg) s broken fun _ t => ∃ slot i,
      Entering u st (ls ++ [slot]) (sc.declare param.name param.ty) t ∧
        u.Passed t.module.symbols st s u.entry t u.entry ∧
        t.module.graph.code u.entry = s.module.graph.code u.entry ++ [slot, i] ∧
        t.module.graph.Receives u.entry [(param, arg)] [slot] [slot, i] := by
  refine entering.alloca.bind ?_
  intro slot s1 ⟨⟨passed1, plainSlot⟩, free, code1, k⟩
  have entering1 := entering.passed passed1
  refine (entering1.store (passed1.plain plain) plainSlot).bind ?_
  intro i s2 ⟨passed2, code2, stores, ops⟩
  have entering2 := entering1.passed passed2
  have grows := passed2.advances.grows
  refine (entering2.declare (passed2.plain plainSlot) (free.mono grows)).mono (fun _ bad => bad) ?_
  intro _ t ⟨ent, passed3, eq⟩
  refine ⟨slot, i, ent, (passed1.trans passed2).trans passed3, ?_, ?_⟩
  · rw [eq, code2, code1, append_assoc]
    rfl
  · rw [eq]
    exact .cons (grows.inst k) (grows.ty? _ _ free.ty) stores ops .nil

theorem params {pairs : List (Param × ValueId)} (plain : ∀ pair ∈ pairs, s.module.graph.Plain pair.2) :
    Ends (pairs.forM fun pair => Lower.paramSlot pair.1 pair.2) s broken fun _ t => ∃ slots' cs,
      Entering u st (ls ++ slots') (pairs.foldl (fun sc pair => sc.declare pair.1.name pair.1.ty) sc)
        t ∧ u.Passed t.module.symbols st s u.entry t u.entry ∧
        t.module.graph.code u.entry = s.module.graph.code u.entry ++ cs ∧
        t.module.graph.Receives u.entry pairs slots' cs := by
  induction pairs generalizing ls sc s with
  | nil =>
    refine .pure ⟨[], [], ?_, .refl entering.building, (append_nil _).symm, .nil⟩
    rw [append_nil]
    exact entering
  | cons pair tl ih =>
    refine (entering.paramSlot (plain pair mem_cons_self)).bind ?_
    intro _ s1 ⟨slot, i, entering1, passed1, code1, receives1⟩
    refine (ih entering1 fun other mem => passed1.plain (plain other (mem_cons_of_mem _ mem))).mono
      (fun _ bad => bad) ?_
    intro _ t ⟨slots', cs, ent, passed2, code2, receives2⟩
    have grows := passed2.advances.grows
    refine ⟨slot :: slots', slot :: i :: cs, ?_, passed1.trans passed2, ?_, ?_⟩
    · rw [append_assoc] at ent
      exact ent
    · rw [code2, code1, append_assoc]
      rfl
    · cases receives1 with
      | cons k ty stores ops _ =>
        refine .cons (grows.inst k) (grows.ty? _ _ ty) (grows.inst stores) ?_ receives2
        rw [grows.operandsOf _ _ stores]
        exact ops

theorem returnSlot {ty : Ty} (unset : st.returnSlot = none) : Ends (Lower.returnSlot ty) s broken fun slot t =>
      Entering u { st with returnSlot := slot } ls sc t ∧
        u.Passed t.module.symbols { st with returnSlot := slot } s u.entry t u.entry ∧
        t.module.graph.code u.entry = s.module.graph.code u.entry ++ slot.toList ∧
        slot.isNone = ty.isVoid ∧ ∀ v ∈ slot, u.Free st ls t.module.graph v ty := by
  unfold Lower.returnSlot
  split
  next isVoid =>
    have eq : { st with returnSlot := none } = st := by
      rw [← unset]
    refine .pure ⟨?_, ?_, (append_nil _).symm, isVoid.symm, by simp⟩
    · rw [eq]
      exact entering
    · rw [eq]
      exact .refl entering.building
  next notVoid =>
    refine entering.alloca.bind ?_
    intro slot s1 ⟨⟨passed1, plain⟩, free, code1, _⟩
    have entering1 := entering.passed passed1
    have noted : Ends (build (Builder.setReturnSlot slot)) s1 broken fun _ t =>
        Entering u { st with returnSlot := some slot } ls sc t ∧
          u.Passed t.module.symbols { st with returnSlot := some slot } s u.entry t u.entry ∧
          t.module.graph = s1.module.graph := by
      refine .build fun _ m done => ?_
      obtain rfl := modify_ok.1 done
      have made := entering1.building.setReturnSlot plain
      have seated := entering1.seated
      refine ⟨⟨made, entering1.nested, entering1.opened,
        ⟨seated.count, seated.inner, seated.names, seated.nodup, seated.kinds, ?_⟩⟩, ?_, rfl⟩
      · intro v mem isSlot
        cases isSlot
        exact free.fresh mem
      · exact ⟨⟨made, passed1.advances, passed1.waiting, passed1.nodup, passed1.loops⟩, passed1.opened⟩
    refine noted.bind ?_
    intro _ s2 ⟨entering2, passed2, eq⟩
    refine .pure ⟨entering2, passed2, ?_, by simpa using notVoid, ?_⟩
    · rw [eq]
      exact code1
    · intro v isSlot
      cases isSlot
      rw [eq]
      exact free

end

end Entering

theorem Entering.jump (entering : Entering u st ls sc s) {dest : ValueId}
    (into : dest ∈ s.module.graph.layout u.func) : Ends (build (Builder.jump dest)) s broken fun i t =>
      (u.Reached s.module.symbols st s u.entry t u.entry [] ∧
        ∃ last, t.module.graph.lastOf u.entry = some last) ∧
        t.module.graph.code u.entry = s.module.graph.code u.entry ++ [i] ∧
        t.module.graph.kind? i = some (.inst ⟨.jmp, u.entry, .none⟩) ∧
        t.module.graph.operandsOf i = [some dest] := by
  refine .build fun i m done => ?_
  have made := entering.building
  have ended := made.jump into done
  obtain ⟨_, pt, d, closed⟩ := jump_ok made.skeleton.consistent done
  obtain ⟨mid, put, linked, eq⟩ := closed.inserted
  obtain rfl := made.point_eq put
  have apart : i ∉ [dest] := by
    intro mem
    have old := made.lt_of_mem into
    rw [← mem_singleton.1 mem, put.fresh] at old
    exact Nat.lt_irrefl _ old
  refine ⟨⟨ended.turned.reached, ended.closed⟩, ?_, (linked.kind? i).trans put.kind?_self, ?_⟩
  · show m.graph.code u.entry = _
    rw [Graph.code, linked.kind?]
    exact put.code_end rfl
  · show m.graph.operandsOf i = _
    rw [linked.operandsOf, append_edges apart, put.operandsOf, if_pos rfl]
    rfl

structure Started (site : Site) (state : FunctionState) (slots : List ValueId) (scope : Scope) (start s : Lowering)
    (pairs : List (Param × ValueId)) (front : List ValueId) (jump body exit : ValueId) : Prop where
  writing : site.Writing state slots scope s body
  reached : site.Reached s.module.symbols state start site.entry s body [exit]
  exit : state.exit = some exit
  blank : s.module.spot body = ⟨body, 0, s.module.graph.values.size⟩
  code : s.module.graph.code site.entry = start.module.graph.code site.entry ++ front ++ state.returnSlot.toList ++ [jump]
  receives : s.module.graph.Receives site.entry pairs slots front
  jumps : s.module.graph.kind? jump = some (.inst ⟨.jmp, site.entry, .none⟩)
  target : s.module.graph.operandsOf jump = [some body]

private theorem Entering.prologue {α : Type} {pairs : List (Param × ValueId)} {returnTy : Ty}
    {next : Option ValueId → ValueId → Lower α} {final : α → Lowering → Prop}
    (entering : Entering u st [] sc s) (unset : st.returnSlot = none)
    (plain : ∀ pair ∈ pairs, s.module.graph.Plain pair.2) (outside : s.loops = [])
    (tl : ∀ state' ls t front jump body exit, Started u state' ls
        (pairs.foldl (fun sc pair => sc.declare pair.1.name pair.1.ty) sc) s t pairs front jump body exit →
      state'.returnSlot.isNone = returnTy.isVoid →
      (∀ v ∈ state'.returnSlot, u.Free st ls t.module.graph v returnTy) →
      Ends (next state'.returnSlot exit) t broken final) :
    Ends (do
      pairs.forM fun pair => Lower.paramSlot pair.1 pair.2
      let slot ← Lower.returnSlot returnTy
      let exit ← build (Builder.createBlock u.func (some "func_exit"))
      build (Builder.setFunctionExit exit)
      let body ← build (Builder.createBlock u.func (some "body"))
      let _ ← build (Builder.jump body)
      build (Builder.setInsertPoint body)
      next slot exit) s broken final := by
  refine (entering.params plain).bind ?_
  intro _ s1 ⟨ls, front, entering1, passed1, code1, receives1⟩
  rw [nil_append] at entering1
  refine (entering1.returnSlot unset).bind ?_
  intro slot s2 ⟨entering2, passed2, code2, isVoid, free⟩
  refine (createBlock_ends entering2.building).bind ?_
  intro exit s3 ⟨reached3, exitAdded⟩
  refine (setFunctionExit_ends reached3.building exitAdded.mem_layout).bind ?_
  intro _ s4 ⟨building4, same4, loops4⟩
  refine (createBlock_ends building4).bind ?_
  intro body s5 ⟨reached5, bodyAdded⟩
  have bs : s2.module.graph.Grows u.entry s5.module.graph :=
    reached3.advances.grows.trans (same4 ▸ reached5.advances.grows)
  have code5 : s5.module.graph.code u.entry = s2.module.graph.code u.entry := by
    rw [bodyAdded.code, same4, exitAdded.code]
  have names5 := reached5.building.names
  have entering5 : Entering u { st with returnSlot := slot, exit := some exit } ls
      (pairs.foldl (fun sc pair => sc.declare pair.1.name pair.1.ty) sc) s5 := by
    have seated := entering2.seated.grown bs names5
    refine ⟨?_, ?_, ?_, ⟨seated.count, seated.inner, seated.names, seated.nodup, seated.kinds, seated.apart⟩⟩
    · rw [names5]
      exact reached5.building
    · rw [names5]
      exact entering2.nested
    · rw [bodyAdded.lastOf, same4, exitAdded.lastOf]
      exact entering2.opened
  refine (entering5.jump bodyAdded.mem_layout).bind ?_
  intro jump s6 ⟨⟨reached6, last6⟩, code6, jumps, dest⟩
  have toExit := (passed1.toReached.trans passed2.toReached).trans reached3
  have noted : u.Reached s2.module.symbols { st with returnSlot := slot, exit := some exit } s u.entry s4
      u.entry [exit] :=
    ⟨building4, same4 ▸ toExit.advances, same4 ▸ toExit.waiting, toExit.nodup, loops4.trans toExit.loops⟩
  have toBody := ((noted.trans reached5).trans reached6).perm (List.Perm.swap body exit [])
  have notEntry := (toBody.waiting body mem_cons_self).notEntry
  refine (setInsertPoint_ends toBody last6).bind ?_
  intro _ s7 ⟨reached7, blank, same7⟩
  have names7 := reached7.building.names
  have grows : s5.module.graph.Grows u.entry s7.module.graph := same7 ▸ reached6.advances.grows
  have path : u.Reached s7.module.symbols { st with returnSlot := slot, exit := some exit } s u.entry s7 body
      [exit] := names7 ▸ reached7
  refine tl { st with returnSlot := slot, exit := some exit } ls s7 front jump body exit
    ⟨⟨⟨path.building, ?_, ?_, rfl⟩, notEntry, ?_, entering5.seated.grown grows names7⟩, path, rfl,
      spot_of_blank blank, ?_, ?_, ?_, ?_⟩ isVoid ?_
  · rw [path.loops, outside]
    simp
  · rw [names7]
    exact entering5.nested
  · rw [Graph.lastOf, blank]
    rfl
  · rw [same7, code6, code5, code2, code1]
  · exact receives1.mono (passed2.advances.grows.trans (bs.trans grows))
  · rw [same7]
    exact jumps
  · rw [same7]
    exact dest
  · intro v isSlot
    exact (free v isSlot).mono (bs.trans grows)

private theorem outermost_carries {here : ValueId} (body : Stmt) (outside : s.loops = [])
    (writing : u.Writing st ls sc s here) : ∃ scope', sc.Within scope' ∧
      Carries u st ls scope' s here (outermost body) fun c => c.PerformsBody sc body := by
  have noLoop : s.loops.head? = none := by
    rw [outside]
    rfl
  cases body with
  | compound body loc => exact ⟨_, Stmt.within_afterAll body writing.nested, stmts_carries body noLoop writing⟩
  | _ => exact ⟨_, Stmt.within_after _ writing.nested, stmt_carries _ noLoop writing⟩

section Return
variable {scs : ScopeTable ValueId} {here exit : ValueId}

private theorem ret_follows {val : Option ValueId} (inner : u.Inner scs st s.module here) :
    Ends (build (Builder.ret val)) s broken fun i t =>
      s.module.graph.Grows u.entry t.module.graph ∧ ∀ c : Plan, c.Includes u t.module.graph →
        c.Puts (s.module.spot here) .ret .void val.toList .none i (t.module.spot here) := by
  refine .build fun i m done => ?_
  obtain ⟨pt, d, put⟩ := insertInst_ok inner.skeleton.consistent done
  obtain rfl := inner.toBuilding.point_eq put
  exact ⟨put.grows u.entry rfl, fun c incl => inner.puts done incl⟩

private theorem enterExit_ends {next : Lower Unit} {final : Unit → Lowering → Prop}
    (made : u.Building scs st s.module here) (into : exit ∈ s.module.graph.layout u.func)
    (notEntry : exit ≠ u.entry) (blank : s.module.graph.code exit = [])
    (tl : ∀ t, u.Inner scs st t.module exit → s.module.graph.Grows u.entry t.module.graph →
      t.module.spot exit = ⟨exit, 0, t.module.graph.values.size⟩ → Ends next t broken final) :
    Ends (do
      build (Builder.moveBlockToEnd u.func exit)
      build (Builder.setInsertPoint exit)
      next) s broken final := by
  have moved : Ends (build (Builder.moveBlockToEnd u.func exit)) s broken fun _ t =>
      u.Building scs st t.module here ∧ s.module.graph.Grows u.entry t.module.graph ∧
        exit ∈ t.module.graph.layout u.func ∧ t.module.graph.code exit = [] := by
    refine .build fun _ m done => ?_
    obtain ⟨moved, grows, kinds, layout⟩ := made.moveBlockToEnd into notEntry done
    refine ⟨moved, grows, ?_, ?_⟩
    · rw [layout]
      exact mem_append_right _ mem_cons_self
    · rw [Graph.code, kinds]
      exact blank
  refine moved.bind ?_
  rintro _ s1 ⟨building1, grows, inside1, blank1⟩
  have ent : Ends (build (Builder.setInsertPoint exit)) s1 broken fun _ t =>
      u.Inner scs st t.module exit ∧ t.module.graph = s1.module.graph := by
    refine .build fun _ m done => ?_
    obtain ⟨ent, eq⟩ := building1.entered inside1 done
    exact ⟨⟨ent, notEntry⟩, eq⟩
  refine ent.bind ?_
  rintro _ s2 ⟨inner, eq⟩
  refine tl s2 inner (eq ▸ grows) (spot_of_blank ?_)
  rw [eq]
  exact blank1

private theorem answer_ends {slot : Option ValueId} {ty : Ty} (inner : u.Inner scs st s.module exit)
    (blank : s.module.spot exit = ⟨exit, 0, s.module.graph.values.size⟩) (plain : ∀ v ∈ slot, s.module.graph.Plain v)
    (isTy : ∀ v ∈ slot, s.module.graph.ty? v = some (.pointer ty.unqualified)) :
    Ends (do
      let res ← build (slot.mapM Builder.load)
      let _ ← build (Builder.ret res)) s (fun _ => True) fun _ t =>
        s.module.graph.Grows u.entry t.module.graph ∧ ∀ c : Plan, c.Includes u t.module.graph →
          c.exit = exit → c.result = slot → c.Answers ty := by
  cases slot with
  | none =>
    have nothing : Ends (build (Option.mapM Builder.load none)) s (fun _ => True) fun res t =>
        res = none ∧ t = s := by
      refine .build fun res m done => ?_
      obtain ⟨rfl, rfl⟩ := pure_ok.1 done
      exact ⟨rfl, rfl⟩
    refine nothing.bind ?_
    rintro _ _ ⟨eq, same'⟩
    subst eq same'
    refine (ret_follows inner).bind ?_
    rintro i t ⟨grows, puts⟩
    refine .pure ⟨grows, ?_⟩
    intro c incl isExit isResult
    rw [Plan.Answers, isResult, isExit]
    exact ⟨_, i, _, blank ▸ puts c incl⟩
  | some slot =>
    have loads : Ends (build (Option.mapM Builder.load (some slot))) s (fun _ => True) fun res t => ∃ v,
        res = some v ∧ u.Passed scs st s exit t exit ∧
          ∀ c : Plan, c.Includes u t.module.graph →
            c.Puts (s.module.spot exit) .load ty.unqualified [slot] .none v (t.module.spot exit) := by
      refine .build fun res m done => ?_
      obtain ⟨v, loading, rfl⟩ := map_ok.1 done
      refine ⟨v, rfl, (upkeep.load inner.toBuilding (plain slot rfl) loading).1.passed, ?_⟩
      intro c incl
      obtain ⟨own, pointee, read, points, put⟩ := load_ok loading
      cases read.symm.trans (isTy slot rfl)
      cases points
      exact inner.puts put incl
    refine loads.bind ?_
    rintro _ s1 ⟨v, eq, passed, loaded⟩
    subst eq
    refine (ret_follows (inner.passed passed)).bind ?_
    rintro i t ⟨grows, puts⟩
    refine .pure ⟨passed.advances.grows.trans grows, ?_⟩
    intro c incl isExit isResult
    rw [Plan.Answers, isResult, isExit]
    exact ⟨_, v, _, i, _, blank ▸ loaded c (incl.before grows), puts c incl⟩

end Return

section Body
variable {f : FuncDef} {ns : Bindings Variable} {args : List ValueId} {s0 : Lowering} {front : List ValueId}
  {jump body exit : ValueId}
variable {c : Plan} {base : Graph} {fn : ValueId}

theorem Started.entrance {slots' : List ValueId} {pairs : List (Param × ValueId)}
    (started : Started u st ls sc s0 s pairs front jump body exit)
    (empty : s0.module.graph.code u.entry = [])
    (arguments : ∀ (i : Nat) pair, pairs[i]? = some pair → ∃ n, s.module.graph.kind? pair.2 = some (.argument i n))
    (isSlot : ∀ v ∈ st.returnSlot, s.module.graph.opcode? v = some .alloca)
    (hosts : c.Hosts u st slots' s.module.graph) (longer : ls <+: slots') :
    ∃ more, c.Entrance pairs ls front more jump body := by
  have ends : s.module.graph.isTerminator jump := by
    rw [isTerminator_of_opcode? (opcode?_eq started.jumps)]
    rfl
  have cs := started.code
  rw [empty, nil_append] at cs
  obtain ⟨more, now, allocas⟩ := hosts.grows.slots _ jump cs ends
  refine ⟨st.returnSlot.toList ++ more, ?_⟩
  rw [← hosts.entry] at now
  refine ⟨?_, ?_, ?_, ?_, ?_, ?_, ?_, longer.trans hosts.seats⟩
  · rw [hosts.entry]
    exact started.receives.mono hosts.grows
  · intro i pair mem
    obtain ⟨n, isArg⟩ := arguments i pair mem
    exact ⟨n, hosts.grows.kind? _ _ isArg rfl⟩
  · rw [now, append_assoc front]
  · rw [hosts.entry]
    exact hosts.skeleton.coded.once _ ((hosts.skeleton.laid.blocks _).1 hosts.skeleton.entry_mem).1
  · intro v mem
    rcases mem_append.1 mem with isResult | later
    · exact hosts.grows.opcode? (isSlot v (Option.mem_toList.1 isResult))
    · exact allocas v later
  · rw [hosts.entry]
    exact hosts.grows.inst started.jumps
  · rw [hosts.grows.operandsOf _ _ started.jumps]
    exact started.target

private theorem arranged_of_seated {ty : Ty} (seated : u.Seated st ls sc s.module)
    (hosts : c.Hosts u st ls s.module.graph) (all : c.slots = ls)
    (isVoid : st.returnSlot.isNone = ty.isVoid)
    (res : ∀ v ∈ st.returnSlot, u.Slot s.module.graph v ∧ s.module.graph.ty? v = some (.pointer ty.unqualified)) :
    c.Arranged ty := by
  refine ⟨?_, ?_, ?_, ?_, ?_⟩
  · intro v mem
    have isSlot := seated.kinds v (all ▸ mem)
    obtain ⟨ty, isTy⟩ := isSlot.points
    exact ⟨ty, hosts.slotted isSlot isTy⟩
  · rw [all]
    exact seated.nodup
  · intro n v isGlobal
    obtain ⟨_, hit, _⟩ := (hosts.global n v).1 isGlobal
    rw [hosts.skeleton.framed.kind? v (lt_of_kind? hit)]
    exact hit
  · intro slot isResult
    rw [← hosts.result] at isResult
    obtain ⟨isSlot, isTy⟩ := res slot isResult
    refine ⟨?_, hosts.slotted isSlot isTy⟩
    rw [all]
    exact fun mem => seated.apart slot mem isResult
  · rw [← hosts.result]
    exact isVoid

structure Drawn (site : Site) (g : Graph) (plan : Plan) : Prop where
  graph : plan.graph = g
  entry : plan.entry = site.entry
  global : plan.global = site.global
  functions : plan.functions = site.functions
  start : site.base.values.size ≤ plan.start

/-- A function that was started gets the code around its body. -/
theorem Started.encloses
    (started : Started u st ls (f.scope ns) s0 s (f.params.zip args) front jump body exit)
    (outside : s0.loops = []) (eq : args.length = f.params.length)
    (empty : s0.module.graph.code u.entry = [])
    (arguments : ∀ (i : Nat) pair, (f.params.zip args)[i]? = some pair →
      ∃ n, s.module.graph.kind? pair.2 = some (.argument i n))
    (isVoid : st.returnSlot.isNone = f.returnType.isVoid)
    (res : ∀ v ∈ st.returnSlot, u.Slot s.module.graph v ∧
      s.module.graph.ty? v = some (.pointer f.returnType.unqualified)) :
    Ends (do
      outermost f.body
      jumpUnlessTerminated exit
      build (Builder.moveBlockToEnd u.func exit)
      build (Builder.setInsertPoint exit)
      let res ← build (st.returnSlot.mapM Builder.load)
      let _ ← build (Builder.ret res)) s (fun _ => True) fun _ t =>
        u.base.Skeleton t.module.graph u.func u.entry →
          ∃ c : Plan, Drawn u t.module.graph c ∧ c.Encloses f ns := by
  obtain ⟨scope', within, carries⟩ := outermost_carries f.body (started.reached.loops.trans outside) started.writing
  have into := (started.reached.waiting exit mem_cons_self).inside
  refine part_carries carries started.writing within started.reached into ?_
  intro slots' s1 there longer grows1 reached1 _ seated codes
  have waits := reached1.waiting exit mem_cons_self
  refine enterExit_ends reached1.building waits.inside waits.notEntry waits.blank ?_
  intro s2 inner grows2 blank
  have grows := grows1.trans grows2
  refine Ends.mono (answer_ends inner blank (fun v isResult => inner.returnSlot v isResult)
    fun v isResult => grows.ty? _ _ (res v isResult).2) (fun _ _ => trivial) ?_
  intro _ t ⟨grows3, answers⟩ skel
  let c : Plan := ⟨t.module.graph, u.entry, exit, st.returnSlot, slots', u.global, u.functions,
    s.module.graph.values.size⟩
  have hosts : c.Hosts u st slots' s1.module.graph :=
    ⟨⟨rfl, skel, grows2.trans grows3, rfl⟩, prefix_rfl, fun _ _ => Site.global_eq_some, started.exit, rfl⟩
  have isSlot : ∀ v ∈ st.returnSlot, s.module.graph.opcode? v = some .alloca := by
    intro v isResult
    obtain ⟨_, hit⟩ := (res v isResult).1.kind
    exact opcode?_eq hit
  obtain ⟨more, entrance⟩ := started.entrance empty arguments isSlot
    ⟨hosts.toIncludes.before grows1, hosts.seats, hosts.global, hosts.exit, hosts.result⟩ longer
  obtain ⟨q, cs, jumps⟩ := codes c hosts
  rw [started.blank] at cs
  have pre := started.reached.building.skeleton
  refine ⟨c, ⟨rfl, rfl, rfl, rfl, pre.framed.size⟩, ?_,
    ⟨args, ls, front, more, jump, body, q, eq, entrance, cs, jumps⟩, ?_,
    answers c ⟨rfl, skel, .refl _ _, rfl⟩ rfl rfl⟩
  · refine arranged_of_seated seated hosts rfl isVoid ?_
    intro v isResult
    obtain ⟨isSlot, isTy⟩ := res v isResult
    exact ⟨isSlot.mono grows1, grows1.ty? _ _ isTy⟩
  · intro v mem
    rw [entrance.code, append_assoc, mem_append, mem_append] at mem
    have early : v ∈ s.module.graph.code u.entry → v.index < s.module.graph.values.size := fun mem => by
      obtain ⟨_, d, hit, _⟩ := pre.coded.listed u.entry v ((pre.laid.blocks _).1 pre.entry_mem).1 mem
      exact lt_of_kind? hit
    rw [started.code] at early
    rcases mem with isFirst | isSlot | isJump
    · exact .inr (early (by simp [isFirst]))
    · exact .inl (entrance.allocas v isSlot)
    · exact .inr (early (by simp [mem_singleton.1 isJump]))

private theorem foldl_declare_zip (params : List Param) (eq : args.length = params.length) (sc : Scope) :
    (params.zip args).foldl (fun sc pair => sc.declare pair.1.name pair.1.ty) sc =
      params.foldl (fun sc param => sc.declare param.name param.ty) sc := by
  have firsts : (params.zip args).map (·.1) = params := map_fst_zip (Nat.le_of_eq eq.symm)
  conv => rhs; rw [← firsts, foldl_map]

private theorem start_ends {α : Type} {next : Option ValueId → ValueId → Lower α} {final : α → Lowering → Prop}
    (ho : Opened base s fn f args) (blank : s.module.symbols.inner = [[]])
    (old : (siteOf base s fn).Names ((f.name, ⟨.global f.name, f.ty⟩) :: ns))
    (tl : ∀ st ls s1 s2 front jump body exit,
      Started (siteOf base s fn) st ls (f.scope ns) s1 s2 (f.params.zip args) front jump body exit →
      s.module.graph.Grows (siteOf base s fn).entry s1.module.graph → s1.loops = [] →
      s1.module.graph.code (siteOf base s fn).entry = [] → st.returnSlot.isNone = f.returnType.isVoid →
      (∀ v ∈ st.returnSlot, (siteOf base s fn).Slot s2.module.graph v ∧
        s2.module.graph.ty? v = some (.pointer f.returnType.unqualified)) →
      Ends (next st.returnSlot exit) s2 broken final) :
    Ends (do
      let entry ← build (Builder.createBlock fn (some "entry"))
      build (Builder.setInsertPoint entry)
      let args := (← build (Builder.ask (·.function fn))).args
      (f.params.zip args).forM fun (param, arg) => Lower.paramSlot param arg
      let slot ← Lower.returnSlot f.returnType
      let exit ← build (Builder.createBlock fn (some "func_exit"))
      build (Builder.setFunctionExit exit)
      let body ← build (Builder.createBlock fn (some "body"))
      let _ ← build (Builder.jump body)
      build (Builder.setInsertPoint body)
      next slot exit) s broken final := by
  refine entry_ends ho ?_
  intro s1 loops made entryAdded
  refine Ends.ask.bind ?_
  intro d s1 ⟨read, eq⟩
  subst eq
  have grows := entryAdded.grows (siteOf base s fn).entry ⟨_, ho.added.kind?⟩
  have isData : d.args = args := by
    have k := function_eq_ok.1 read
    rw [grows.kind? _ _ ho.added.kind? rfl] at k
    cases k
    rfl
  have length : args.length = f.params.length := by
    rw [ho.added.arity.2, length_map]
  have empty : s1.module.graph.code (siteOf base s fn).entry = [] := by
    rw [entryAdded.code]
    exact ho.added.code_nil ho.added.framed.size
  have symbols : s1.module.symbols = s.module.symbols := made.names
  rw [isData]
  have plain : ∀ pair ∈ f.params.zip args, s1.module.graph.Plain pair.2 := by
    intro pair mem
    exact grows.plain (ho.added.plain_arg (of_mem_zip mem).2)
  have entering : Entering (siteOf base s fn) { function := fn, entry := (siteOf base s fn).entry } []
      ⟨⟨[[]], (f.name, ⟨.global f.name, f.ty⟩) :: ns⟩, 0⟩ s1 := by
    refine ⟨symbols ▸ made, ?_, ?_, ⟨rfl, ?_, old, nodup_nil, by simp, by simp⟩⟩
    · rw [symbols, blank]
      exact Nat.zero_lt_one
    · rw [Graph.lastOf, empty]
      rfl
    · rw [symbols, blank]
      exact .cons .nil .nil
  refine @Entering.prologue (siteOf base s fn) _ _ s1 _ _ _ f.returnType next _ entering rfl plain
    (loops.trans ho.loops) ?_
  intro st ls s2 front jump body exit started isVoid free
  rw [foldl_declare_zip f.params length] at started
  refine tl st ls s1 s2 front jump body exit started grows (loops.trans ho.loops) empty isVoid ?_
  intro v isResult
  exact ⟨(free v isResult).toSlot, (free v isResult).ty⟩

theorem functionBody_encloses (ho : Opened base s fn f args) (blank : s.module.symbols.inner = [[]])
    (old : (siteOf base s fn).Names ((f.name, ⟨.global f.name, f.ty⟩) :: ns)) :
    Ends (functionBody fn f) s (fun _ => True) fun _ t =>
      base.Skeleton t.module.graph fn (siteOf base s fn).entry →
        ∃ c : Plan, Drawn (siteOf base s fn) t.module.graph c ∧ c.Encloses f ns := by
  refine start_ends ho blank old ?_
  intro st ls s1 s2 front jump body exit started grows loops empty isVoid res
  have later := grows.trans started.reached.advances.grows
  have length : args.length = f.params.length := by
    rw [ho.added.arity.2, length_map]
  refine started.encloses loops length empty ?_ isVoid res
  intro i pair mem
  obtain ⟨_, isArg⟩ := getElem?_zip_eq_some.1 mem
  obtain ⟨_, n, _, _, _, k, _⟩ := ho.added.args i pair.2 isArg
  exact ⟨n, later.kind? _ _ k rfl⟩

end Body

end Lower
end Midend
