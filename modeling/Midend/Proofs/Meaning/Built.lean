import Mathlib.Data.List.Find
import Midend.Proofs.Lower.Stmt
import Midend.Proofs.Meaning.Plan

/-! What the builder puts at the end of a block is code of every plan that has what was built. A
plan may have more: code that comes later changes none of it. -/
namespace Midend
open List Graph

structure Plan.Includes (plan : Plan) (site : Site) (g : Graph) : Prop where
  entry : plan.entry = site.entry
  skeleton : site.base.Skeleton plan.graph site.func site.entry
  grows : g.Grows site.entry plan.graph
  functions : plan.functions = site.functions

namespace Plan.Includes
variable {c : Plan} {site : Site} {g t : Graph} {v : ValueId}

theorem before (incl : c.Includes site t) (grows : g.Grows site.entry t) : c.Includes site g :=
  { incl with grows := grows.trans incl.grows }

theorem kind (incl : c.Includes site g) (plain : g.Plain v) {k : Kind} (hit : g.kind? v = some k) :
    c.graph.kind? v = some k := by
  refine incl.grows.kind? v k hit ?_
  have nb := plain.notBlock
  rwa [Graph.isBlock, hit] at nb

theorem callee {m : Module} (incl : c.Includes site m.graph) (fs : m.functions = site.functions)
    (callable : ∀ f ∈ m.functions, m.graph.Plain f) (n : String) : c.callee? n = m.findFunction n := by
  rw [callee?, incl.functions, ← fs]
  refine find?_congr fun f mem => ?_
  obtain ⟨k, hit⟩ := exists_kind? (callable f mem).inside
  cases k <;> simp only [incl.kind (callable f mem) hit, hit]

theorem ty (incl : c.Includes site g) {ty : Ty} (hit : g.ty? v = some ty) : c.graph.ty? v = some ty :=
  incl.grows.ty? v ty hit

end Plan.Includes

namespace Site
open Builder
variable {site : Site} {scs : ScopeTable ValueId} {st : FunctionState} {m mid t : Module}
  {here u v : ValueId} {c : Plan}
variable {n : Option String} {slot : ValueId}

structure Inner (site : Site) (scopes : ScopeTable ValueId) (state : FunctionState) (m : Module) (here : ValueId) :
    Prop extends site.Building scopes state m here where
  apart : here ≠ site.entry

namespace Inner
variable {attr : Attr} {d : Block} {op : Opcode} {ops : List ValueId} {pt : InsertPoint}
  {lhs rhs slot : ValueId}

theorem straight (inner : site.Inner scs st m here) (str : site.Straight scs st m t here) :
    site.Inner scs st t here :=
  ⟨str.building, inner.apart⟩

theorem inserted (inner : site.Inner scs st m here) {ty : Ty}
    (put : Inserted m t v op ty ops attr pt d) (incl : c.Includes site t.graph) :
    c.Puts (m.spot here) op ty ops attr v (t.spot here) := by
  obtain rfl := inner.point_eq put
  have cs := put.code_end rfl
  have hit := put.kind?_self
  refine ⟨?_, incl.grows.inst hit, incl.ty (by rw [put.ty?, if_pos rfl]), ?_, put.fresh, ?_⟩
  · obtain ⟨more, now⟩ := incl.grows.code inner.apart
    show (c.graph.code here)[(m.graph.code here).length]? = some v
    rw [← now, cs, append_assoc, getElem?_append_right (Nat.le_refl _), Nat.sub_self]
    rfl
  · rw [incl.grows.operandsOf v _ hit, put.operandsOf, if_pos rfl]
  · show Spot.mk _ _ _ = Spot.mk _ _ _
    rw [cs, put.size, length_append]
    rfl

theorem puts (inner : site.Inner scs st m here) {ty : Ty}
    (done : insertInst op ty ops attr m = .ok (v, t)) (incl : c.Includes site t.graph) :
    c.Puts (m.spot here) op ty ops attr v (t.spot here) := by
  obtain ⟨pt, d, put⟩ := insertInst_ok inner.skeleton.consistent done
  exact inner.inserted put incl

theorem made (inner : site.Inner scs st m here) {k : Kind} {ty : Ty} {lim : Option Nat}
    (done : addValue k ty lim m = .ok (v, t)) (nb : k.isBlock = false)
    (incl : c.Includes site t.graph) :
    c.graph.kind? v = some k ∧ c.graph.ty? v = some ty ∧ v = ⟨(m.spot here).size⟩ ∧
      t.spot here = (m.spot here).grow := by
  obtain ⟨rfl, rfl⟩ := addValue_ok.1 done
  have add := inner.skeleton.consistent.add_added k ty lim
  refine ⟨incl.grows.kind? _ _ (by rw [add.kind?, if_pos rfl]) nb,
    incl.ty (by rw [add.ty?, if_pos rfl]), add.fresh, ?_⟩
  have empty : k.insts = [] := by
    cases k with
    | block => cases nb
    | _ => rfl
  show Spot.mk _ _ _ = Spot.mk _ _ _
  rw [add.code empty, add.size]
  rfl

section
variable (inner : site.Inner scs st m here)
include inner

theorem constant {val : Int64} {ty : Ty}
    (done : constInt val ty m = .ok (v, t)) (incl : c.Includes site t.graph) :
    c.Constant (m.spot here) val ty v (t.spot here) := by
  obtain ⟨k, isTy, fresh, next⟩ := inner.made done rfl incl
  exact ⟨k, isTy, fresh, next⟩

theorem loads (plain : m.graph.Plain u)
    (done : valueOf u m = .ok (v, t)) (incl : c.Includes site t.graph) :
    c.Loads (m.spot here) u v (t.spot here) := by
  have within := incl.before (upkeep.valueOf inner.toBuilding plain done).1.advances.grows
  obtain ⟨k, hit, ⟨isAddress, loading⟩ | ⟨notAddress, rfl, rfl⟩⟩ := valueOf_ok done
  · obtain ⟨ty, pointee, isTy, points, run⟩ := load_ok loading
    exact .address (within.kind plain hit) isAddress (within.ty isTy) points (inner.puts run incl)
  · exact .plain (within.kind plain hit) notAddress

theorem converts {ty : Ty} (plain : m.graph.Plain u)
    (done : convert u ty m = .ok (v, t)) (incl : c.Includes site t.graph) :
    c.Converts (m.spot here) u ty v (t.spot here) := by
  have within := incl.before (upkeep.convert inner.toBuilding plain done).1.advances.grows
  obtain ⟨source, isTy, run⟩ := convert_ok done
  split at run
  next op hit => exact .cast (within.ty isTy) hit (inner.puts run incl)
  next none =>
    obtain ⟨rfl, rfl⟩ := run
    exact .same (within.ty isTy) none

theorem unifies {left right : ValueId} {ty : Ty}
    (plainLeft : m.graph.Plain lhs) (plainRight : m.graph.Plain rhs) (unified : Unified m t lhs rhs left right ty)
    (incl : c.Includes site t.graph) :
    c.Unifies (m.spot here) lhs rhs left right ty (t.spot here) := by
  obtain ⟨l, m1, r, m2, leftTy, rightTy, m3, loadingLeft, loadingRight, isLeft, isRight, leftInteger, rightInteger,
    common, convertingLeft, convertingRight⟩ := unified.steps
  obtain ⟨first, plainL⟩ := upkeep.valueOf inner.toBuilding plainLeft loadingLeft
  have inner1 := inner.straight first
  obtain ⟨second, plainR⟩ := upkeep.valueOf inner1.toBuilding (first.plain plainRight) loadingRight
  have inner2 := inner1.straight second
  obtain ⟨third, _⟩ := upkeep.convert inner2.toBuilding (second.plain plainL) convertingLeft
  have inner3 := inner2.straight third
  obtain ⟨fourth, _⟩ := upkeep.convert inner3.toBuilding (third.plain plainR) convertingRight
  have includes3 := incl.before fourth.advances.grows
  have includes2 := includes3.before third.advances.grows
  have includes1 := includes2.before second.advances.grows
  exact ⟨l, r, m1.spot here, m2.spot here, inner.loads plainLeft loadingLeft includes1,
    inner1.loads (first.plain plainRight) loadingRight includes2, leftTy, rightTy, m3.spot here,
    includes2.ty isLeft, includes2.ty isRight, leftInteger, rightInteger, common,
    inner2.converts (second.plain plainL) convertingLeft includes3,
    inner3.converts (third.plain plainR) convertingRight incl⟩

theorem binary (plainLeft : m.graph.Plain lhs)
    (plainRight : m.graph.Plain rhs) (done : Builder.binary op lhs rhs m = .ok (v, t))
    (includes : c.Includes site t.graph) : c.Binary (m.spot here) op lhs rhs v (t.spot here) := by
  obtain ⟨isBinary, left, right, ty, mid, unified, run⟩ := binary_ok done
  obtain ⟨first, plainL, plainR⟩ := upkeep.unified inner.toBuilding plainLeft plainRight unified
  have inner1 := inner.straight first
  have put := inner1.puts run includes
  obtain ⟨second, _⟩ := upkeep.insert inner1.toBuilding (by cases op <;> first | rfl | cases isBinary)
    (by rintro rfl; cases isBinary) (by simp [plainL, plainR]) run
  exact ⟨left, right, ty, _, inner.unifies plainLeft plainRight unified (includes.before second.advances.grows), put⟩

theorem compares {pred : Predicate} (plainLeft : m.graph.Plain lhs)
    (plainRight : m.graph.Plain rhs) (done : Builder.icmp pred lhs rhs m = .ok (v, t))
    (incl : c.Includes site t.graph) :
    c.Compares (m.spot here) pred lhs rhs v (t.spot here) := by
  obtain ⟨left, right, ty, mid, unified, run⟩ := icmp_ok done
  obtain ⟨first, plainL, plainR⟩ := upkeep.unified inner.toBuilding plainLeft plainRight unified
  have inner1 := inner.straight first
  have put := inner1.puts run incl
  obtain ⟨second, _⟩ := upkeep.insert inner1.toBuilding rfl (by decide) (by simp [plainL, plainR]) run
  exact ⟨left, right, ty, _, inner.unifies plainLeft plainRight unified (incl.before second.advances.grows), put⟩

theorem tests (plain : m.graph.Plain u)
    (done : Lower.toBool u m = .ok (v, t)) (incl : c.Includes site t.graph) :
    c.Tests (m.spot here) u v (t.spot here) := by
  have within := incl.before (upkeep.toBool inner.toBuilding plain done).1.advances.grows
  obtain ⟨ty, asked, run⟩ := ask_bind_ok.1 done
  have isTy := within.ty (ty_eq_ok.1 asked)
  split at run
  next isBool =>
    obtain ⟨rfl, rfl⟩ := pure_ok.1 run
    exact .truth isTy isBool
  next notBool =>
    obtain ⟨zero, mid, making, comparing⟩ := bind_ok.1 run
    obtain ⟨first, plainZero⟩ := inner.added making rfl
    have inner1 := inner.straight first
    obtain ⟨second, _⟩ := upkeep.icmp inner1.toBuilding (first.plain plain) plainZero comparing
    exact .compare isTy (Bool.eq_false_iff.2 notBool) (inner.constant making (incl.before second.advances.grows))
      (inner1.compares (first.plain plain) plainZero comparing incl)

/-- The builder makes the code of a unary operator. -/
theorem unary {op : UnaryOp} (plain : m.graph.Plain u)
    (done : Lower.unary op u m = .ok (v, t)) (incl : c.Includes site t.graph) :
    c.Unary (m.spot here) op u v (t.spot here) := by
  have within := incl.before (upkeep.unary inner.toBuilding plain done).1.advances.grows
  obtain ⟨ty, asked, run⟩ := ask_bind_ok.1 done
  refine ⟨ty, within.ty (ty_eq_ok.1 asked), ?_⟩
  cases op with
  | plus =>
    obtain ⟨rfl, rfl⟩ := pure_ok.1 run
    exact ⟨rfl, rfl⟩
  | minus =>
    obtain ⟨zero, mid, making, computing⟩ := bind_ok.1 run
    obtain ⟨first, plainZero⟩ := inner.added making rfl
    have inner1 := inner.straight first
    obtain ⟨second, _⟩ := upkeep.binary inner1.toBuilding plainZero (first.plain plain) computing
    exact ⟨zero, _, inner.constant making (incl.before second.advances.grows),
      inner1.binary plainZero (first.plain plain) computing incl⟩
  | logicalNot =>
    obtain ⟨zero, mid, making, comparing⟩ := bind_ok.1 run
    obtain ⟨first, plainZero⟩ := inner.added making rfl
    have inner1 := inner.straight first
    obtain ⟨second, _⟩ := upkeep.icmp inner1.toBuilding (first.plain plain) plainZero comparing
    exact ⟨zero, _, inner.constant making (incl.before second.advances.grows),
      inner1.compares (first.plain plain) plainZero comparing incl⟩
  | bitNot =>
    obtain ⟨ones, mid, making, computing⟩ := bind_ok.1 run
    obtain ⟨first, plainOnes⟩ := inner.added making rfl
    have inner1 := inner.straight first
    obtain ⟨second, _⟩ := upkeep.binary inner1.toBuilding (first.plain plain) plainOnes computing
    exact ⟨ones, _, inner.constant making (incl.before second.advances.grows),
      inner1.binary (first.plain plain) plainOnes computing incl⟩

theorem stores {val : ValueId} (done : store val slot m = .ok (v, t))
    (incl : c.Includes site t.graph) : c.Stores (m.spot here) val slot (t.spot here) := by
  obtain ⟨_, _, _, run⟩ := store_ok done
  exact ⟨v, inner.puts run incl⟩

theorem assigns (plainSlot : m.graph.Plain slot) (plain : m.graph.Plain u)
    (done : assign slot u m = .ok (v, t)) (incl : c.Includes site t.graph) :
    c.Assigns (m.spot here) slot u v (t.spot here) := by
  obtain ⟨loaded, m1, ty, pointee, m2, stored, loading, isTy, points, converting, storing⟩ := assign_ok done
  obtain ⟨first, plainLoaded⟩ := upkeep.valueOf inner.toBuilding plain loading
  have inner1 := inner.straight first
  obtain ⟨second, plainValue⟩ :=
    upkeep.convert inner1.toBuilding plainLoaded converting
  have inner2 := inner1.straight second
  have third := upkeep.store inner2.toBuilding plainValue (second.plain (first.plain plainSlot)) storing
  have includes2 := incl.before third.advances.grows
  have includes1 := includes2.before second.advances.grows
  exact ⟨loaded, _, inner.loads plain loading includes1, _, ty, pointee, includes1.ty isTy, points,
    inner1.converts plainLoaded converting includes2, inner2.stores storing incl⟩

/-- The builder makes the code that passes arguments. -/
theorem passes {args : List (ValueId × Ty)} {values : List ValueId} (plain : ∀ arg ∈ args, m.graph.Plain arg.1)
    (done : (args.mapM fun arg => do convert (← valueOf arg.1) arg.2 : Builder (List ValueId)) m = .ok (values, t))
    (incl : c.Includes site t.graph) : c.Passes args (m.spot here) values (t.spot here) := by
  induction args generalizing m values with
  | nil =>
    rw [mapM_nil] at done
    obtain ⟨rfl, rfl⟩ := pure_ok.1 done
    exact ⟨rfl, rfl⟩
  | cons arg tl ih =>
    rw [mapM_cons] at done
    obtain ⟨val, m1, one, run⟩ := bind_ok.1 done
    obtain ⟨others, m2, more, run⟩ := bind_ok.1 run
    obtain ⟨rfl, rfl⟩ := pure_ok.1 run
    obtain ⟨loaded, m3, loading, converting⟩ := bind_ok.1 one
    obtain ⟨first, plainLoaded⟩ := upkeep.valueOf inner.toBuilding (plain arg mem_cons_self) loading
    have inner1 := inner.straight first
    obtain ⟨second, _⟩ := upkeep.convert inner1.toBuilding plainLoaded converting
    have inner2 := inner1.straight second
    have plainRest : ∀ arg ∈ tl, m1.graph.Plain arg.1 := fun arg mem =>
      second.plain (first.plain (plain arg (mem_cons_of_mem _ mem)))
    have includes2 := incl.before (upkeep.arguments inner2.toBuilding plainRest more).1.advances.grows
    exact ⟨loaded, val, others, _, _, inner.loads (plain arg mem_cons_self) loading
      (includes2.before second.advances.grows), inner1.converts plainLoaded converting includes2,
      ih inner2 plainRest more, rfl⟩

theorem calls {callee : ValueId} {args : List ValueId}
    (plainCallee : m.graph.Plain callee) (plain : ∀ arg ∈ args, m.graph.Plain arg)
    (done : call callee args m = .ok (v, t)) (incl : c.Includes site t.graph) :
    c.Calls (m.spot here) callee args v (t.spot here) := by
  obtain ⟨ty, isTy, run⟩ := ask_bind_ok.1 done
  obtain ⟨_, run⟩ := ensure_bind_ok.1 run
  obtain ⟨count, run⟩ := ensure_bind_ok.1 run
  obtain ⟨values, mid, passing, run⟩ := bind_ok.1 run
  have plainArgs : ∀ arg ∈ args.zip ty.paramTypes, m.graph.Plain arg.1 := fun arg listed =>
    plain arg.1 (of_mem_zip listed).1
  obtain ⟨first, plainValues⟩ :=
    upkeep.arguments inner.toBuilding plainArgs passing
  have inner1 := inner.straight first
  have plainOperands : ∀ v ∈ callee :: values, mid.graph.Plain v := by
    intro v listed
    rcases mem_cons.1 listed with rfl | listed
    · exact first.plain plainCallee
    · exact plainValues v listed
  have includes1 := incl.before (inner1.toBuilding.insertInst rfl (by decide) plainOperands run).1.advances.grows
  exact ⟨ty, values, _, (includes1.before first.advances.grows).ty (ty_eq_ok.1 isTy), by simpa using count,
    inner.passes plainArgs passing includes1, inner1.puts run incl⟩

theorem closed {dests : List ValueId} (done : Closed m t v op ops dests pt d)
    (into : ∀ dest ∈ dests, dest ∈ m.graph.layout site.func) (incl : c.Includes site t.graph) :
    c.Puts (m.spot here) op .void ops .none v (m.spot here).next := by
  obtain ⟨mid, put, linked, eq⟩ := done.inserted
  have included : c.Includes site mid.graph := by
    refine incl.before (linked.grows site.entry ?_)
    intro w old isInst
    refine append_edges ?_ pt.block _
    intro goes
    obtain ⟨b, hb⟩ := inner.skeleton.block_of_mem (into w goes)
    have kept := put.isBlock w
    rw [Graph.isBlock, isInst, Graph.isBlock, hb] at kept
    cases kept
  have puts := inner.inserted put included
  rw [puts.next] at puts
  exact puts

theorem jumps {dest : ValueId} (into : dest ∈ m.graph.layout site.func) (done : jump dest m = .ok (v, t))
    (incl : c.Includes site t.graph) : c.Jumps (m.spot here) dest := by
  obtain ⟨_, pt, d, closed⟩ := jump_ok inner.skeleton.consistent done
  exact ⟨_, v, _, inner.closed closed (by simpa using into) incl⟩

theorem branches {cond thenBlock elseBlock : ValueId}
    (thenInside : thenBlock ∈ m.graph.layout site.func) (elseInside : elseBlock ∈ m.graph.layout site.func)
    (done : branch cond thenBlock elseBlock m = .ok (v, t)) (incl : c.Includes site t.graph) :
    c.Branches (m.spot here) cond thenBlock elseBlock := by
  obtain ⟨_, pt, d, closed⟩ := branch_ok inner.skeleton.consistent done
  exact ⟨_, v, _, inner.closed closed (by simp [thenInside, elseInside]) incl⟩

end

end Inner

theorem Building.slotted (made : site.Building scs st m here) {ty : Ty}
    (done : Builder.alloca ty n m = .ok (slot, t)) (incl : c.Includes site t.graph) :
    c.Slotted slot ty n := by
  obtain ⟨state', d, current, allocated⟩ := alloca_ok made.skeleton.consistent done
  obtain rfl : st = state' := Option.some.inj (made.current.symm.trans current)
  rw [made.entry] at allocated
  have hit := incl.grows.inst allocated.inserted.kind?_self
  have above : site.base.values.size ≤ slot.index := by
    rw [allocated.inserted.fresh]
    exact made.skeleton.framed.size
  refine ⟨?_, ?_, incl.ty ?_⟩
  · rw [incl.entry]
    exact (incl.skeleton.coded.homes slot _ above hit).2
  · rw [incl.entry]
    exact hit
  · show t.graph.ty? slot = _
    exact (allocated.inserted.ty? slot).trans (if_pos rfl)

theorem Inner.spot_alloca (inner : site.Inner scs st m here) {ty : Ty}
    (done : Builder.alloca ty n m = .ok (slot, t)) : t.spot here = (m.spot here).grow := by
  obtain ⟨state', d, current, allocated⟩ := alloca_ok inner.skeleton.consistent done
  obtain rfl : st = state' := Option.some.inj (inner.current.symm.trans current)
  rw [inner.entry] at allocated
  have cs : t.graph.code here = m.graph.code here :=
    (allocated.inserted.code here).trans (if_neg inner.apart)
  have size : t.graph.values.size = m.graph.values.size + 1 := allocated.inserted.size
  show Spot.mk _ _ _ = Spot.mk _ _ _
  rw [cs, size]
  rfl

end Site
end Midend
