import Midend.Proofs.Module.Building

/-! Functions come into a module and go out of it again. A new function has arguments and no
blocks; a function that is taken out leaves nothing behind that refers to its blocks. -/
namespace Midend.Builder
open List Graph
variable {m t : Module}
variable {g : Graph} {ids : List ValueId} {ty : Ty}

structure AllAdded (g after : Graph) (items : List (Kind × Ty)) (ids : List ValueId) : Prop where
  consistent : after.Consistent
  size : after.values.size = g.values.size + items.length
  ids : ids = (List.range items.length).map fun index => ⟨g.values.size + index⟩
  framed : g.Framed after
  limit? : ∀ v, v.index < g.values.size → after.limit? v = g.limit? v
  new : ∀ index kind ty, items[index]? = some (kind, ty) →
    after.kind? ⟨g.values.size + index⟩ = some kind ∧ after.ty? ⟨g.values.size + index⟩ = some ty
  operandsOf : ∀ v, after.operandsOf v = g.operandsOf v

theorem AllAdded.get {t : Graph} {items : List (Kind × Ty)} (add : AllAdded g t items ids) {i : Nat}
    {id : ValueId} (hit : ids[i]? = some id) : i < items.length ∧ id = ⟨g.values.size + i⟩ := by
  obtain ⟨lt, read⟩ := List.getElem?_eq_some_iff.1 hit
  have ids := add.ids
  subst ids
  simp only [List.getElem_map, List.getElem_range] at read
  exact ⟨by simpa using lt, read.symm⟩

theorem framed_added {t : Graph} {v : ValueId} {k : Kind} (add : g.Added t v k ty) : g.Framed t := by
  refine ⟨by rw [add.size]; exact Nat.le_succ _, ?_, ?_, fun v _ => add.operandsOf v⟩
  · intro w into
    rw [add.kind? w, if_neg]
    rw [add.fresh]
    exact ne_fresh into
  · intro w into
    rw [add.ty? w, if_neg]
    rw [add.fresh]
    exact ne_fresh into

theorem mapM_addValue_ok {α : Type} {items : List α} {k : α → Kind} {ty : α → Ty} {lim : Option Nat}
    (valid : m.graph.Consistent)
    (done : (items.mapM fun item => addValue (k item) (ty item) lim : Builder (List ValueId)) m =
      .ok (ids, t)) : AllAdded m.graph t.graph (items.map fun item => (k item, ty item)) ids ∧
      t = { m with graph := t.graph } := by
  induction items generalizing m ids with
  | nil =>
    rw [mapM_nil] at done
    obtain ⟨rfl, rfl⟩ := pure_ok.1 done
    exact ⟨⟨valid, rfl, rfl, .refl _, fun _ _ => rfl, by simp, fun _ => rfl⟩, rfl⟩
  | cons item tl ih =>
    rw [mapM_cons] at done
    obtain ⟨first, m1, one, run⟩ := bind_ok.1 done
    obtain ⟨others, m2, more, run⟩ := bind_ok.1 run
    obtain ⟨rfl, rfl⟩ := pure_ok.1 run
    obtain ⟨rfl, rfl⟩ := addValue_ok.1 one
    have added := valid.add_added (k item) (ty item) lim
    obtain ⟨rests, eq⟩ := ih added.consistent more
    have shift : ∀ i, m.graph.values.size + (i + 1) =
        (m.graph.add (k item) (ty item) lim).2.values.size + i := by
      intro i
      rw [added.size]
      omega
    refine ⟨⟨rests.consistent, ?_, ?_, (framed_added added).trans rests.framed, ?_, ?_, ?_⟩, eq⟩
    · rw [rests.size, ← shift]
      simp
    · rw [rests.ids, added.fresh, map_cons, length_cons, range_succ_eq_map]
      simp only [map_cons, map_map, Nat.add_zero, Function.comp_def, shift, Nat.succ_eq_add_one]
    · intro v older
      have newer : v ≠ (m.graph.add (k item) (ty item) lim).1 := added.fresh ▸ ne_fresh older
      rw [rests.limit? v (Nat.lt_of_lt_of_le older (framed_added added).size), added.limit? v newer]
    · intro i kind' ty' hit
      cases i with
      | zero =>
        cases hit
        rw [Nat.add_zero, ← added.fresh]
        have into : (m.graph.add (k item) (ty item) lim).1.index <
            (m.graph.add (k item) (ty item) lim).2.values.size := by
          rw [added.size, added.fresh]
          exact Nat.lt_succ_self _
        exact ⟨(rests.framed.kind? _ into).trans (by rw [added.kind?, if_pos rfl]),
          (rests.framed.ty? _ into).trans (by rw [added.ty?, if_pos rfl])⟩
      | succ i =>
        rw [shift]
        exact rests.new i kind' ty' hit
    · intro v
      rw [rests.operandsOf, added.operandsOf]

structure FunctionAdded (g after : Graph) (func : ValueId) (name : String) (ty : Ty)
    (argNames : List String) (args : List ValueId) : Prop where
  consistent : after.Consistent
  fresh : func = ⟨g.values.size⟩
  size : after.values.size = g.values.size + 1 + args.length
  framed : g.Framed after
  limit? : ∀ v, v.index < g.values.size → after.limit? v = g.limit? v
  kind? : after.kind? func = some (.function ⟨name, args⟩)
  ty? : after.ty? func = some ty
  unlimited : after.limit? func = some none
  arity : args.length = ty.paramTypes.length ∧ args.length = argNames.length
  args : ∀ index arg, args[index]? = some arg →
    arg = ⟨g.values.size + 1 + index⟩ ∧ ∃ argName paramTy, argNames[index]? = some argName ∧
      ty.paramTypes[index]? = some paramTy ∧ after.kind? arg = some (.argument index argName) ∧
      after.ty? arg = some paramTy
  operandsOf : ∀ v, after.operandsOf v = g.operandsOf v

/-- What creating a function does. -/
theorem createFunction_ok {n : String} {argNames : List String} {fn : ValueId} (valid : m.graph.Consistent)
    (done : createFunction n ty argNames m = .ok (fn, t)) :
    ∃ args, FunctionAdded m.graph t.graph fn n ty argNames args ∧
      t = { m with graph := t.graph, functions := m.functions ++ [fn] } := by
  obtain ⟨_, run⟩ := ensure_bind_ok.1 done
  obtain ⟨arity, run⟩ := ensure_bind_ok.1 run
  have added := valid.add_added (.function ⟨n, []⟩) ty none
  have run := addValue_bind_ok.1 run
  obtain ⟨args, m1, making, run⟩ := bind_ok.1 run
  obtain ⟨made, eq⟩ := mapM_addValue_ok added.consistent making
  obtain ⟨g2, changing, run⟩ := change_bind_ok.1 run
  have rekinded := setKind_rekinded made.consistent changing
  have run := modify_bind_ok.1 run
  obtain ⟨rfl, rfl⟩ := pure_ok.1 run
  have sameArity : ty.paramTypes.length = argNames.length := by simpa using arity
  have count : args.length = ty.paramTypes.length := by
    rw [made.ids]
    simp [sameArity]
  have notFunc : ∀ v : ValueId, m.graph.values.size + 1 ≤ v.index →
      v ≠ (m.graph.add (.function ⟨n, []⟩) ty none).1 := by
    rintro v above rfl
    rw [added.fresh] at above
    exact Nat.not_succ_le_self _ above
  have into : (m.graph.add (.function ⟨n, []⟩) ty none).1.index <
      (m.graph.add (.function ⟨n, []⟩) ty none).2.values.size := by
    rw [added.size, added.fresh]
    exact Nat.lt_succ_self _
  have framed := (framed_added added).trans made.framed
  refine ⟨args, ⟨rekinded.consistent, added.fresh, ?_, ⟨?_, ?_, ?_, ?_⟩, ?_, ?_, ?_, ?_, ⟨count, count.trans sameArity⟩,
    ?_, ?_⟩, ?_⟩
  · rw [rekinded.size, made.size, added.size, made.ids]
    simp
  · rw [rekinded.size]
    exact framed.size
  · intro v older
    rw [rekinded.kind? v, if_neg, framed.kind? v older]
    rw [added.fresh]
    exact ne_fresh older
  · intro v older
    rw [rekinded.ty? v, framed.ty? v older]
  · intro v older
    rw [rekinded.operandsOf v, framed.operandsOf v older]
  · intro v older
    have newer : v ≠ (m.graph.add (.function ⟨n, []⟩) ty none).1 := added.fresh ▸ ne_fresh older
    rw [rekinded.limit?, made.limit? v (Nat.lt_of_lt_of_le older (framed_added added).size), added.limit? v newer]
  · rw [rekinded.kind?, if_pos rfl]
  · rw [rekinded.ty?, made.framed.ty? _ into, added.ty?, if_pos rfl]
  · rw [rekinded.limit?, made.limit? _ into, limit?_add, if_pos rfl]
  · intro i arg hit
    obtain ⟨lt, isArg⟩ := made.get hit
    rw [added.size] at isArg
    have bound' : i < ty.paramTypes.length ∧ i < argNames.length := by
      simpa [sameArity] using lt
    obtain ⟨argName, isName⟩ : ∃ argName, argNames[i]? = some argName :=
      ⟨_, getElem?_eq_getElem bound'.2⟩
    obtain ⟨paramTy, isTy⟩ : ∃ paramTy, ty.paramTypes[i]? = some paramTy :=
      ⟨_, getElem?_eq_getElem bound'.1⟩
    have item : ((ty.paramTypes.zip argNames).zipIdx.map fun item =>
        (Kind.argument item.2 item.1.2, item.1.1))[i]? = some (.argument i argName, paramTy) := by
      have pair : (ty.paramTypes.zip argNames)[i]? = some (paramTy, argName) :=
        getElem?_zip_eq_some.2 ⟨isTy, isName⟩
      rw [getElem?_map, getElem?_zipIdx, pair]
      simp
    obtain ⟨k, argTy⟩ := made.new i _ _ item
    rw [added.size, ← isArg] at k argTy
    refine ⟨isArg, argName, paramTy, isName, isTy, ?_, ?_⟩
    · rw [rekinded.kind?, if_neg, k]
      exact notFunc arg (by rw [isArg]; exact Nat.le_add_right _ _)
    · rw [rekinded.ty?, argTy]
  · intro v
    rw [rekinded.operandsOf, made.operandsOf, added.operandsOf]
  · rw [eq]

section Remove
variable {res : PUnit}

private theorem change_dropOperands_ok {v : ValueId} {res : Unit} (valid : m.graph.Consistent)
    (done : change (·.dropOperands v) m = .ok (res, t)) :
    m.graph.Rewired t.graph (fun w old => if w = v then [] else old) ∧ t = { m with graph := t.graph } := by
  obtain ⟨graph, dropping, rfl⟩ := change_ok.1 done
  obtain ⟨d, read, _⟩ := bind_eq_ok.1 dropping
  obtain ⟨graph', dropped, wired⟩ := valid.dropOperands_rewired (lt_of_value read)
  obtain rfl : graph' = graph := Except.ok.inj (dropped.symm.trans dropping)
  exact ⟨wired, rfl⟩

theorem forM_dropOperands_ok {values : List ValueId} (valid : m.graph.Consistent)
    (done : values.forM (fun v => change (·.dropOperands v)) m = .ok (res, t)) :
    m.graph.Rewired t.graph (fun w old => if w ∈ values then [] else old) ∧
      t = { m with graph := t.graph } := by
  induction values generalizing m with
  | nil =>
    obtain ⟨_, rfl⟩ := pure_ok.1 done
    exact ⟨.unchanged valid fun _ => by simp, rfl⟩
  | cons v tl ih =>
    obtain ⟨_, m1, first, next⟩ := bind_ok.1
      (show (change (·.dropOperands v) >>= fun _ => tl.forM fun v => change (·.dropOperands v)) m = _ from done)
    obtain ⟨left, eq⟩ := change_dropOperands_ok valid first
    obtain ⟨right, same'⟩ := ih left.consistent next
    refine ⟨(left.trans right).congr ?_, by rw [same', eq]⟩
    intro w
    by_cases isFirst : w = v
    · simp [isFirst]
    · simp [isFirst]

theorem dropBlock_ok {b : ValueId} {res : Unit} (valid : m.graph.Consistent)
    (done : dropBlock b m = .ok (res, t)) :
    m.graph.Rewired t.graph (fun w old => if w = b ∨ w ∈ m.graph.code b then [] else old) ∧
      t = { m with graph := t.graph } := by
  obtain ⟨d, read, run⟩ := ask_bind_ok.1 done
  have cs := code_of_kind? (block_eq_ok.1 read)
  obtain ⟨_, m1, dropping, run⟩ := bind_ok.1 run
  obtain ⟨left, eq⟩ := forM_dropOperands_ok valid dropping
  obtain ⟨right, same'⟩ := change_dropOperands_ok left.consistent run
  refine ⟨(left.trans right).congr ?_, by rw [same', eq]⟩
  intro w
  rw [cs]
  by_cases hb : w = b
  · simp [hb]
  · simp [hb]

theorem forM_dropBlock_ok {bs : List ValueId} (valid : m.graph.Consistent)
    (done : bs.forM dropBlock m = .ok (res, t)) :
    m.graph.Rewired t.graph (fun w old => if w ∈ bs ∨ w ∈ bs.flatMap m.graph.code then [] else old) ∧
      t = { m with graph := t.graph } := by
  induction bs generalizing m with
  | nil =>
    obtain ⟨_, rfl⟩ := pure_ok.1 done
    exact ⟨.unchanged valid fun _ => by simp, rfl⟩
  | cons b tl ih =>
    obtain ⟨_, m1, first, next⟩ := bind_ok.1 (show (dropBlock b >>= fun _ => tl.forM dropBlock) m = _ from done)
    obtain ⟨left, eq⟩ := dropBlock_ok valid first
    obtain ⟨right, same'⟩ := ih left.consistent next
    have cs : m1.graph.code = m.graph.code := by
      funext w
      rw [Graph.code, left.kind?, Graph.code]
    rw [cs] at right
    refine ⟨(left.trans right).congr ?_, by rw [same', eq]⟩
    intro w
    simp only [mem_cons, flatMap_cons, mem_append]
    by_cases here : w = b ∨ w ∈ m.graph.code b
    · rw [if_pos here, ite_self, if_pos (by tauto)]
    · rw [if_neg here]
      congr 1
      simp only [eq_iff_iff]
      tauto

structure Removed (m after : Module) (func : ValueId) : Prop where
  graph : m.graph.Rewired after.graph fun v old =>
    (if v = func ∨ v ∈ m.graph.layout func ∨ v ∈ (m.graph.layout func).flatMap m.graph.code then []
      else old).filter (· ≠ some func)
  functions : after.functions = m.functions.filter (· ≠ func)
  globals : after.globals = m.globals
  symbols : ∀ data, m.graph.kind? func = some (.function data) → after.symbols =
    if m.symbols.lookup data.name = some func then m.symbols.remove data.name else m.symbols
  idle : m.current = none → after.current = none ∧ after.insertPoint = m.insertPoint
  contexts : after.contexts = m.contexts
  report : after.report = m.report

/-- What removing a function does. -/
theorem removeFunction_ok {fn : ValueId} {res : Unit} (valid : m.graph.Consistent)
    (into : fn.index < m.graph.values.size)
    (done : removeFunction fn m = .ok (res, t)) : Removed m t fn := by
  obtain ⟨bs, read, run⟩ := ask_bind_ok.1 done
  rw [valid.functionBlocks into] at read
  cases read
  obtain ⟨_, m1, dropping, run⟩ := bind_ok.1 run
  obtain ⟨first, same1⟩ := forM_dropBlock_ok valid dropping
  obtain ⟨_, m2, dropping', run⟩ := bind_ok.1 run
  obtain ⟨second, same2⟩ := change_dropOperands_ok first.consistent dropping'
  obtain ⟨g3, removing, run⟩ := change_bind_ok.1 run
  have inside2 : fn.index < m2.graph.values.size := by
    rw [second.size, first.size]
    exact into
  obtain ⟨g3', gone, third⟩ := second.consistent.removeFromUsers_rewired inside2
  obtain rfl : g3' = g3 := Except.ok.inj (gone.symm.trans removing)
  obtain ⟨f, isFn, run⟩ := ask_bind_ok.1 run
  obtain rfl := modify_ok.1 run
  have wired : m.graph.Rewired g3' fun v old =>
      (if v = fn ∨ v ∈ m.graph.layout fn ∨ v ∈ (m.graph.layout fn).flatMap m.graph.code then []
        else old).filter (· ≠ some fn) := by
    refine ((first.trans second).trans third).congr ?_
    intro v
    by_cases isFunc : v = fn
    · simp [isFunc]
    · simp only [isFunc, if_false, false_or]
  have eq : m2 = { m with graph := m2.graph } := by rw [same2, same1]
  have symbols : ∀ d, m.graph.kind? fn = some (.function d) →
      (if m.symbols.lookup f.name = some fn then m.symbols.remove f.name else m.symbols) =
        if m.symbols.lookup d.name = some fn then m.symbols.remove d.name else m.symbols := by
    intro d hit
    have known := function_eq_ok.1 isFn
    rw [wired.kind?, hit] at known
    cases known
    rfl
  rw [eq]
  dsimp only
  split
  next made =>
    refine ⟨wired, rfl, rfl, symbols, fun idle => ?_, rfl, rfl⟩
    rw [idle] at made
    cases made
  next => exact ⟨wired, rfl, rfl, symbols, fun idle => ⟨idle, rfl⟩, rfl, rfl⟩

end Remove
end Midend.Builder
