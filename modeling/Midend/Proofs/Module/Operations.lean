import Midend.Lower.Expr
import Midend.Proofs.Module.Straight

/-! Operations of the builder that put in several instructions, taken apart, and the code
they build: all of it goes to the end of the current block. -/
namespace Midend.Builder
open List Graph
variable {m t : Module} {val v : ValueId}
variable {ptr lhs rhs : ValueId} {ty : Ty} {op : Opcode}

theorem load_ok (done : load ptr m = .ok (v, t)) :
    ∃ ty pointee, m.graph.ty? ptr = some ty ∧ ty.pointee? = some pointee ∧
      insertInst .load pointee [ptr] .none m = .ok (v, t) := by
  obtain ⟨ty, read, run⟩ := ask_bind_ok.1 done
  cases hit : ty.pointee? with
  | none =>
    rw [hit] at run
    exact absurd run fault_ok
  | some pointee =>
    rw [hit] at run
    exact ⟨ty, pointee, ty_eq_ok.1 read, hit, run⟩

theorem store_ok (done : store val ptr m = .ok (v, t)) : ∃ ty, m.graph.ty? ptr = some ty ∧ ty.isPointer ∧
      insertInst .store .void [val, ptr] .none m = .ok (v, t) := by
  obtain ⟨ty, read, run⟩ := ask_bind_ok.1 done
  obtain ⟨isPointer, run⟩ := ensure_bind_ok.1 run
  exact ⟨ty, ty_eq_ok.1 read, isPointer, run⟩

theorem valueOf_ok (done : valueOf val m = .ok (v, t)) : ∃ k, m.graph.kind? val = some k ∧
      ((k.isAddress ∧ load val m = .ok (v, t)) ∨ (k.isAddress = false ∧ val = v ∧ m = t)) := by
  obtain ⟨k, read, run⟩ := ask_bind_ok.1 done
  refine ⟨k, kind_eq_ok.1 read, ?_⟩
  split at run
  next isAddress => exact .inl ⟨isAddress, run⟩
  next notAddress => exact .inr ⟨by simpa using notAddress, pure_ok.1 run⟩

def castOp (source ty : Ty) : Option Opcode :=
  match source.bitWidth, ty.bitWidth with
  | some width, some wanted =>
    if width < wanted then some (if source.isSigned then .sext else .zext)
    else if wanted < width then some .trunc
    else none
  | _, _ => none

theorem convert_ok (done : convert val ty m = .ok (v, t)) : ∃ source, m.graph.ty? val = some source ∧
      match castOp source ty with
      | some op => insertInst op ty.unqualified [val] .none m = .ok (v, t)
      | none => val = v ∧ m = t := by
  obtain ⟨source, read, run⟩ := ask_bind_ok.1 done
  refine ⟨source, ty_eq_ok.1 read, ?_⟩
  unfold castOp
  cases from' : source.bitWidth with
  | none =>
    rw [from'] at run
    exact pure_ok.1 run
  | some width =>
    cases wanted : ty.bitWidth with
    | none =>
      rw [from', wanted] at run
      exact pure_ok.1 run
    | some wide =>
      rw [from', wanted] at run
      dsimp only at run ⊢
      split at run
      next narrower =>
        rw [if_pos narrower]
        exact (ensure_bind_ok.1 run).2
      next notNarrower =>
        rw [if_neg notNarrower]
        split at run
        next wider =>
          rw [if_pos wider]
          exact (ensure_bind_ok.1 run).2
        next notWider =>
          rw [if_neg notWider]
          exact pure_ok.1 run

theorem castOp_isCast {source : Ty} (hit : castOp source ty = some op) : op.isCast := by
  unfold castOp at hit
  split at hit
  · split at hit
    · cases hit
      split <;> rfl
    · split at hit
      · cases hit
        rfl
      · cases hit
  · cases hit

theorem assign_ok {slot source : ValueId} (done : assign slot source m = .ok (v, t)) :
    ∃ loaded m1 ty pointee m2 stored, valueOf source m = .ok (loaded, m1) ∧
      m1.graph.ty? slot = some ty ∧ ty.pointee? = some pointee ∧
      convert loaded pointee m1 = .ok (v, m2) ∧ store v slot m2 = .ok (stored, t) := by
  obtain ⟨loaded, m1, loading, run⟩ := bind_ok.1 done
  obtain ⟨ty, read, run⟩ := ask_bind_ok.1 run
  cases hit : ty.pointee? with
  | none =>
    rw [hit] at run
    exact absurd run fault_ok
  | some pointee =>
    rw [hit] at run
    obtain ⟨converted, m2, converting, run⟩ := bind_ok.1 run
    obtain ⟨stored, m3, storing, run⟩ := bind_ok.1 run
    obtain ⟨rfl, rfl⟩ := pure_ok.1 run
    exact ⟨loaded, m1, ty, pointee, m2, stored, loading, ty_eq_ok.1 read, hit, converting, storing⟩

structure Unified (m after : Module) (lhs rhs left right : ValueId) (ty : Ty) : Prop where
  steps : ∃ l m₁ r m₂ leftTy rightTy m₃, valueOf lhs m = .ok (l, m₁) ∧ valueOf rhs m₁ = .ok (r, m₂) ∧
    m₂.graph.ty? l = some leftTy ∧ m₂.graph.ty? r = some rightTy ∧
    leftTy.isInteger ∧ rightTy.isInteger ∧ ty = leftTy.common rightTy ∧
    convert l ty m₂ = .ok (left, m₃) ∧ convert r ty m₃ = .ok (right, after)

private theorem unify_ok {left right : ValueId} (done : unify lhs rhs m = .ok ((left, right, ty), t)) :
    Unified m t lhs rhs left right ty := by
  obtain ⟨l, m1, loadingLeft, run⟩ := bind_ok.1 done
  obtain ⟨r, m2, loadingRight, run⟩ := bind_ok.1 run
  obtain ⟨leftTy, readLeft, run⟩ := ask_bind_ok.1 run
  obtain ⟨rightTy, readRight, run⟩ := ask_bind_ok.1 run
  obtain ⟨integers, run⟩ := ensure_bind_ok.1 run
  obtain ⟨left', m3, convertingLeft, run⟩ := bind_ok.1 run
  obtain ⟨right', m4, convertingRight, run⟩ := bind_ok.1 run
  obtain ⟨eq, rfl⟩ := pure_ok.1 run
  cases eq
  rw [Bool.and_eq_true] at integers
  exact ⟨l, m1, r, m2, leftTy, rightTy, m3, loadingLeft, loadingRight, ty_eq_ok.1 readLeft,
    ty_eq_ok.1 readRight, integers.1, integers.2, rfl, convertingLeft, convertingRight⟩

theorem binary_ok (done : binary op lhs rhs m = .ok (v, t)) :
    op.isBinary ∧ ∃ left right ty mid, Unified m mid lhs rhs left right ty ∧
      insertInst op ty [left, right] .none mid = .ok (v, t) := by
  obtain ⟨isBinary, run⟩ := ensure_bind_ok.1 done
  obtain ⟨⟨left, right, ty⟩, mid, unifying, run⟩ := bind_ok.1 run
  exact ⟨isBinary, left, right, ty, mid, unify_ok unifying, run⟩

theorem icmp_ok {pred : Predicate} (done : icmp pred lhs rhs m = .ok (v, t)) :
    ∃ left right ty mid, Unified m mid lhs rhs left right ty ∧
      insertInst .icmp .bool [left, right] (.icmp pred) mid = .ok (v, t) := by
  obtain ⟨⟨left, right, ty⟩, mid, unifying, run⟩ := bind_ok.1 done
  exact ⟨left, right, ty, mid, unify_ok unifying, run⟩

structure Upkeep (Inv : Module → Prop) (Rel : Module → Module → Prop) (Usable : Module → ValueId → Prop) : Prop where
  refl : ∀ {m}, Inv m → Rel m m
  trans : ∀ {m middle after}, Rel m middle → Rel middle after → Rel m after
  holds : ∀ {m after}, Rel m after → Inv after
  stays : ∀ {m after v}, Rel m after → Usable m v → Usable after v
  insert : ∀ {m after op ty operands attr v}, Inv m → op.isTerminator = false → op ≠ .alloca →
    (∀ operand ∈ operands, Usable m operand) → insertInst op ty operands attr m = .ok (v, after) →
    Rel m after ∧ Usable after v
  constant : ∀ {m after number ty v}, Inv m → constInt number ty m = .ok (v, after) →
    Rel m after ∧ Usable after v

namespace Upkeep
variable {Inv : Module → Prop} {Rel : Module → Module → Prop} {Usable : Module → ValueId → Prop}
variable {lhs rhs : ValueId}

section
variable (upkeep : Upkeep Inv Rel Usable)
include upkeep

theorem load (inv : Inv m) (usable : Usable m val)
    (done : Builder.load val m = .ok (v, t)) : Rel m t ∧ Usable t v := by
  obtain ⟨_, _, _, _, run⟩ := load_ok done
  exact upkeep.insert inv rfl (by decide) (by simpa using usable) run

theorem store (inv : Inv m) (usable : Usable m val) (usablePtr : Usable m ptr)
    (done : Builder.store val ptr m = .ok (v, t)) : Rel m t := by
  obtain ⟨_, _, _, run⟩ := store_ok done
  exact (upkeep.insert inv rfl (by decide) (by simp [usable, usablePtr]) run).1

theorem valueOf (inv : Inv m) (usable : Usable m val)
    (done : Builder.valueOf val m = .ok (v, t)) : Rel m t ∧ Usable t v := by
  obtain ⟨k, _, ⟨_, loading⟩ | ⟨_, rfl, rfl⟩⟩ := valueOf_ok done
  · exact upkeep.load inv usable loading
  · exact ⟨upkeep.refl inv, usable⟩

theorem convert (inv : Inv m) (usable : Usable m val) (done : Builder.convert val ty m = .ok (v, t)) :
    Rel m t ∧ Usable t v := by
  obtain ⟨source, _, run⟩ := convert_ok done
  split at run
  next op hit =>
    have isCast := castOp_isCast hit
    refine upkeep.insert inv ?_ ?_ (by simpa using usable) run
    · cases op <;> first | rfl | cases isCast
    · rintro rfl
      cases isCast
  next =>
    obtain ⟨rfl, rfl⟩ := run
    exact ⟨upkeep.refl inv, usable⟩

theorem assign (inv : Inv m) {slot : ValueId} (usableSlot : Usable m slot)
    (usable : Usable m val) (done : Builder.assign slot val m = .ok (v, t)) : Rel m t ∧ Usable t v := by
  obtain ⟨loaded, m1, ty, pointee, m2, stored, loading, _, _, converting, storing⟩ := assign_ok done
  obtain ⟨first, usableLoaded⟩ := upkeep.valueOf inv usable loading
  obtain ⟨second, usableConverted⟩ := upkeep.convert (upkeep.holds first) usableLoaded converting
  have third := upkeep.store (upkeep.holds second) usableConverted
    (upkeep.stays second (upkeep.stays first usableSlot)) storing
  exact ⟨upkeep.trans (upkeep.trans first second) third, upkeep.stays third usableConverted⟩

theorem unified (inv : Inv m) {lhs rhs left right : ValueId} {ty : Ty}
    (usableLeft : Usable m lhs) (usableRight : Usable m rhs) (unified : Unified m t lhs rhs left right ty) :
    Rel m t ∧ Usable t left ∧ Usable t right := by
  obtain ⟨l, m1, r, m2, _, _, m3, loadingLeft, loadingRight, _, _, _, _, _, convertingLeft,
    convertingRight⟩ := unified.steps
  obtain ⟨first, usableL⟩ := upkeep.valueOf inv usableLeft loadingLeft
  obtain ⟨second, usableR⟩ := upkeep.valueOf (upkeep.holds first) (upkeep.stays first usableRight) loadingRight
  obtain ⟨third, usableL'⟩ := upkeep.convert (upkeep.holds second) (upkeep.stays second usableL) convertingLeft
  obtain ⟨fourth, usableR'⟩ := upkeep.convert (upkeep.holds third) (upkeep.stays third usableR) convertingRight
  exact ⟨upkeep.trans (upkeep.trans (upkeep.trans first second) third) fourth, upkeep.stays fourth usableL', usableR'⟩

theorem binary (inv : Inv m) (usableLeft : Usable m lhs) (usableRight : Usable m rhs)
    (done : Builder.binary op lhs rhs m = .ok (v, t)) : Rel m t ∧ Usable t v := by
  obtain ⟨isBinary, left, right, ty, mid, unified, run⟩ := binary_ok done
  obtain ⟨first, usableL, usableR⟩ := upkeep.unified inv usableLeft usableRight unified
  obtain ⟨second, usable⟩ := upkeep.insert (upkeep.holds first)
    (by cases op <;> first | rfl | cases isBinary) (by rintro rfl; cases isBinary)
    (by simp [usableL, usableR]) run
  exact ⟨upkeep.trans first second, usable⟩

theorem icmp (inv : Inv m) {pred : Predicate} (usableLeft : Usable m lhs)
    (usableRight : Usable m rhs) (done : Builder.icmp pred lhs rhs m = .ok (v, t)) :
    Rel m t ∧ Usable t v := by
  obtain ⟨left, right, ty, mid, unified, run⟩ := icmp_ok done
  obtain ⟨first, usableL, usableR⟩ := upkeep.unified inv usableLeft usableRight unified
  obtain ⟨second, usable⟩ := upkeep.insert (upkeep.holds first) rfl (by decide) (by simp [usableL, usableR]) run
  exact ⟨upkeep.trans first second, usable⟩

theorem toBool (inv : Inv m) (usable : Usable m val)
    (done : Lower.toBool val m = .ok (v, t)) : Rel m t ∧ Usable t v := by
  obtain ⟨ty, _, run⟩ := ask_bind_ok.1 done
  split at run
  · obtain ⟨rfl, rfl⟩ := pure_ok.1 run
    exact ⟨upkeep.refl inv, usable⟩
  · obtain ⟨zero, mid, making, comparing⟩ := bind_ok.1 run
    obtain ⟨first, usableZero⟩ := upkeep.constant inv making
    obtain ⟨second, usableResult⟩ :=
      upkeep.icmp (upkeep.holds first) (upkeep.stays first usable) usableZero comparing
    exact ⟨upkeep.trans first second, usableResult⟩

theorem unary (inv : Inv m) {op : UnaryOp} (usable : Usable m val)
    (done : Lower.unary op val m = .ok (v, t)) : Rel m t ∧ Usable t v := by
  obtain ⟨ty, _, run⟩ := ask_bind_ok.1 done
  cases op with
  | plus =>
    obtain ⟨rfl, rfl⟩ := pure_ok.1 run
    exact ⟨upkeep.refl inv, usable⟩
  | minus =>
    obtain ⟨zero, mid, making, computing⟩ := bind_ok.1 run
    obtain ⟨first, usableZero⟩ := upkeep.constant inv making
    obtain ⟨second, usableResult⟩ :=
      upkeep.binary (upkeep.holds first) usableZero (upkeep.stays first usable) computing
    exact ⟨upkeep.trans first second, usableResult⟩
  | logicalNot =>
    obtain ⟨zero, mid, making, comparing⟩ := bind_ok.1 run
    obtain ⟨first, usableZero⟩ := upkeep.constant inv making
    obtain ⟨second, usableResult⟩ :=
      upkeep.icmp (upkeep.holds first) (upkeep.stays first usable) usableZero comparing
    exact ⟨upkeep.trans first second, usableResult⟩
  | bitNot =>
    obtain ⟨ones, mid, making, computing⟩ := bind_ok.1 run
    obtain ⟨first, usableOnes⟩ := upkeep.constant inv making
    obtain ⟨second, usableResult⟩ :=
      upkeep.binary (upkeep.holds first) (upkeep.stays first usable) usableOnes computing
    exact ⟨upkeep.trans first second, usableResult⟩

theorem arguments (inv : Inv m) {args : List (ValueId × Ty)}
    {values : List ValueId} (usable : ∀ arg ∈ args, Usable m arg.1)
    (done : (args.mapM fun arg => do Builder.convert (← Builder.valueOf arg.1) arg.2 :
      Builder (List ValueId)) m = .ok (values, t)) : Rel m t ∧ ∀ v ∈ values, Usable t v := by
  induction args generalizing m values with
  | nil =>
    rw [mapM_nil] at done
    obtain ⟨rfl, rfl⟩ := pure_ok.1 done
    exact ⟨upkeep.refl inv, by simp⟩
  | cons arg tl ih =>
    rw [mapM_cons] at done
    obtain ⟨first, m1, one, run⟩ := bind_ok.1 done
    obtain ⟨others, m2, more, run⟩ := bind_ok.1 run
    obtain ⟨rfl, rfl⟩ := pure_ok.1 run
    obtain ⟨loaded, m3, loading, converting⟩ := bind_ok.1 one
    obtain ⟨left, usableLoaded⟩ := upkeep.valueOf inv (usable arg mem_cons_self) loading
    obtain ⟨right, usableFirst⟩ := upkeep.convert (upkeep.holds left) usableLoaded converting
    have both := upkeep.trans left right
    obtain ⟨last, usableRest⟩ := ih (upkeep.holds both)
      (fun other member => upkeep.stays both (usable other (mem_cons_of_mem _ member))) more
    refine ⟨upkeep.trans both last, ?_⟩
    intro v member
    rcases mem_cons.1 member with rfl | member
    · exact upkeep.stays last usableFirst
    · exact usableRest v member

theorem call (inv : Inv m) {callee : ValueId} {args : List ValueId}
    (usableCallee : Usable m callee) (usable : ∀ arg ∈ args, Usable m arg)
    (done : Builder.call callee args m = .ok (v, t)) : Rel m t ∧ Usable t v := by
  obtain ⟨ty, _, run⟩ := ask_bind_ok.1 done
  obtain ⟨_, run⟩ := ensure_bind_ok.1 run
  obtain ⟨_, run⟩ := ensure_bind_ok.1 run
  obtain ⟨values, middle, passing, run⟩ := bind_ok.1 run
  obtain ⟨first, usableValues⟩ := upkeep.arguments inv (fun arg member => usable arg.1 (of_mem_zip member).1) passing
  have usableOperands : ∀ v ∈ callee :: values, Usable middle v := by
    intro v member
    rcases mem_cons.1 member with rfl | member
    · exact upkeep.stays first usableCallee
    · exact usableValues v member
  obtain ⟨second, usableResult⟩ := upkeep.insert (upkeep.holds first) rfl (by decide) usableOperands run
  exact ⟨upkeep.trans first second, usableResult⟩

end

end Upkeep
end Midend.Builder

namespace Midend.Site
open Builder
variable {u : Site} {scs : ScopeTable ValueId} {st : FunctionState} {m t : Module} {here v : ValueId}
  {op : Opcode} {ty : Ty}

theorem Building.insertInst (made : u.Building scs st m here) {ops : List ValueId} {attr : Attr}
    (inner : op.isTerminator = false) (notSlot : op ≠ .alloca) (plain : ∀ v ∈ ops, m.graph.Plain v)
    (done : Builder.insertInst op ty ops attr m = .ok (v, t)) :
    u.Straight scs st m t here ∧ t.graph.Plain v := by
  obtain ⟨pt, d, put⟩ := insertInst_ok made.skeleton.consistent done
  exact made.inserted put inner notSlot plain

theorem upkeep : Upkeep (u.Building scs st · here) (u.Straight scs st · · here) (·.graph.Plain) where
  refl := .refl
  trans := .trans
  holds str := str.building
  stays str plain := str.plain plain
  insert building inner notSlot plain done := building.insertInst inner notSlot plain done
  constant building done := building.added done rfl

end Midend.Site
