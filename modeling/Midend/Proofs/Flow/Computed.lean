import Midend.Proofs.Flow.Edges

/-! What becomes of a graph when the edges of one of its functions are computed. The result is
given by an equation and not by what can be read from it, so that it also tells that nothing else
has changed. The graph need not be in order: it is enough that the blocks of the function and the
targets of their terminators can be read. -/
namespace Midend

theorem Kind.edit_id (k : Kind) : k.edit (fun d => d) id = k := by
  cases k <;> rfl

namespace Graph
variable {g : Graph} {v fn : ValueId} {bs : List ValueId} {dests : ValueId → List ValueId}

def reblock (g : Graph) (f : ValueId → Block → Block) : Graph :=
  { g with values := g.values.mapIdx fun index data => { data with kind := data.kind.edit (f ⟨index⟩) id } }

section Reblock
variable {f : ValueId → Block → Block}
variable {d : Block}

theorem value_reblock (g : Graph) (f : ValueId → Block → Block) (v : ValueId) :
    (g.reblock f).value v = (fun data => { data with kind := data.kind.edit (f v) id }) <$> g.value v := by
  unfold value reblock
  simp only [Array.getElem?_mapIdx, Array.size_mapIdx]
  cases g.values[v.index]? <;> rfl

theorem kind_reblock (g : Graph) (f : ValueId → Block → Block) (v : ValueId) :
    (g.reblock f).kind v = Kind.edit (f v) id <$> g.kind v := by
  unfold kind
  rw [value_reblock]
  cases g.value v <;> rfl

theorem kind?_reblock (g : Graph) (f : ValueId → Block → Block) (v : ValueId) :
    (g.reblock f).kind? v = (g.kind? v).map (Kind.edit (f v) id) := by
  simp only [kind?, reblock, Array.getElem?_mapIdx, Option.map_map]
  rfl

@[simp]
theorem ty_reblock (g : Graph) (f : ValueId → Block → Block) : (g.reblock f).ty = g.ty := by
  funext v
  rw [ty, value_reblock, ty]
  cases g.value v <;> rfl

@[simp]
theorem operands_reblock (g : Graph) (f : ValueId → Block → Block) : (g.reblock f).operands = g.operands := by
  funext v
  rw [operands, value_reblock, operands]
  cases g.value v <;> rfl

@[simp]
theorem operand_reblock (g : Graph) (f : ValueId → Block → Block) : (g.reblock f).operand = g.operand := by
  funext v i
  rw [operand, value_reblock, operand]
  cases g.value v <;> rfl

@[simp]
theorem liveOperands_reblock (g : Graph) (f : ValueId → Block → Block) :
    (g.reblock f).liveOperands = g.liveOperands := by
  funext v
  rw [liveOperands, operands_reblock, liveOperands]

theorem block_reblock (g : Graph) (f : ValueId → Block → Block) (v : ValueId) :
    (g.reblock f).block v = f v <$> g.block v := by
  unfold block
  rw [kind_reblock]
  cases g.kind v with
  | error fault => rfl
  | ok k => cases k <;> rfl

@[simp]
theorem opcode?_reblock (g : Graph) (f : ValueId → Block → Block) : (g.reblock f).opcode? = g.opcode? := by
  funext v
  rw [opcode?, kind?_reblock, opcode?]
  cases g.kind? v with
  | none => rfl
  | some k => cases k <;> rfl

theorem reblock_reblock (g : Graph) (f other : ValueId → Block → Block) :
    (g.reblock f).reblock other = g.reblock fun v d => other v (f v d) := by
  have both : ∀ v k, Kind.edit (other v) id (Kind.edit (f v) id k) =
      Kind.edit (fun d => other v (f v d)) id k := by
    intro v k
    cases k <;> rfl
  unfold reblock
  simp only [Array.mapIdx_mapIdx, Function.comp_def, both]

theorem reblock_congr {other : ValueId → Block → Block} (eq : ∀ v d, f v d = other v d) :
    g.reblock f = g.reblock other := by
  rw [show f = other from funext fun v => funext (eq v)]

private theorem modifyBlock_eq (hit : g.kind? v = some (.block d)) (change : Block → Block) :
    g.modifyBlock v change = .ok (g.reblock fun w old => if w = v then change old else old) := by
  have into := lt_of_kind? hit
  unfold modifyBlock setKind modify
  rw [kind_eq_ok.2 hit]
  show (if v.index < g.values.size then _ else _) = _
  rw [if_pos into]
  have here : (g.values[v.index]?.map (·.kind)) = some (.block d) := hit
  congr 1
  unfold reblock
  congr 1
  apply Array.ext_getElem?
  intro i
  rw [Array.getElem?_modify, Array.getElem?_mapIdx]
  obtain ⟨pos⟩ := v
  by_cases same : pos = i
  · subst same
    obtain ⟨val, isValue, isKind⟩ := Option.map_eq_some_iff.1 here
    simp [isValue, isKind, Kind.edit]
  · have apart : ¬ (⟨i⟩ : ValueId) = ⟨pos⟩ := fun eq => same (ValueId.mk.inj eq).symm
    simp [same, apart, Kind.edit_id]

private theorem modifyBlock_reblock (hit : g.kind? v = some (.block d)) (f : ValueId → Block → Block)
    (change : Block → Block) :
    (g.reblock f).modifyBlock v change = .ok (g.reblock fun w old => if w = v then change (f w old) else f w old) := by
  have now : (g.reblock f).kind? v = some (.block (f v d)) := by
    rw [kind?_reblock, hit]
    rfl
  rw [modifyBlock_eq now, reblock_reblock]

end Reblock

theorem targets_reblock {f : ValueId → Block → Block} (insts : ∀ v d, (f v d).insts = d.insts) (v : ValueId) :
    (g.reblock f).targets v = g.targets v := by
  have terminator : (g.reblock f).terminator? v = g.terminator? v := by
    unfold terminator? isTerminator
    rw [block_reblock, opcode?_reblock]
    cases g.block v with
    | error fault => rfl
    | ok d =>
      show Except.ok ((f v d).insts.getLast?.filter _) = _
      rw [insts]
      rfl
  unfold targets branchTargets
  rw [terminator, operands_reblock, opcode?_reblock]

theorem kind?_of_targets {hit : List ValueId} (read : g.targets v = .ok hit) :
    ∃ d, g.kind? v = some (.block d) := by
  obtain ⟨last, ends, _⟩ := bind_eq_ok.1 read
  obtain ⟨d, hb, _⟩ := bind_eq_ok.1 ends
  exact ⟨d, block_eq_ok.1 hb⟩

section Recorded
variable {edges : List (ValueId × ValueId)}
variable {source : ValueId}

def recordEdges (g : Graph) (blocks : List ValueId) (edges : List (ValueId × ValueId)) : Graph :=
  g.reblock fun v data => if v ∈ blocks then linked edges v data else data

private theorem linked_insts (bs : List ValueId) (edges : List (ValueId × ValueId)) (v : ValueId) (d : Block) :
    (if v ∈ bs then linked edges v d else d).insts = d.insts := by
  split <;> rfl

private theorem linkBlocks_recordEdges (areBlocks : ∀ v ∈ bs, ∃ d, g.kind? v = some (.block d)) {dest : ValueId}
    (fromBlock : source ∈ bs) (toBlock : dest ∈ bs) : (g.recordEdges bs edges).linkBlocks source dest =
      .ok (g.recordEdges bs (edges ++ [(source, dest)])) := by
  obtain ⟨sourceData, sourceFound⟩ := areBlocks source fromBlock
  obtain ⟨targetData, targetFound⟩ := areBlocks dest toBlock
  unfold linkBlocks recordEdges
  rw [modifyBlock_reblock sourceFound]
  refine (modifyBlock_reblock targetFound _ _).trans (congrArg Except.ok (reblock_congr ?_))
  intro v d
  by_cases mem : v ∈ bs
  · simp only [if_pos mem, linked_concat]
  · have notSource : v ≠ source := fun eq => mem (eq ▸ fromBlock)
    have notTarget : v ≠ dest := fun eq => mem (eq ▸ toBlock)
    simp [mem, notSource, notTarget]

private theorem foldlM_linkBlocks (areBlocks : ∀ v ∈ bs, ∃ d, g.kind? v = some (.block d))
    (fromBlock : source ∈ bs) {hit : List ValueId} (toBlocks : ∀ v ∈ hit, v ∈ bs) :
    hit.foldlM (fun g dest => g.linkBlocks source dest) (g.recordEdges bs edges) =
      .ok (g.recordEdges bs (edges ++ hit.map (source, ·))) := by
  induction hit generalizing edges with
  | nil => simp [pure, Except.pure]
  | cons dest tl ih =>
    rw [List.foldlM_cons, linkBlocks_recordEdges areBlocks fromBlock (toBlocks dest List.mem_cons_self)]
    refine (ih fun v mem => toBlocks v (List.mem_cons_of_mem _ mem)).trans ?_
    rw [List.append_assoc]
    rfl

def edgesOf (blocks : List ValueId) (targets : ValueId → List ValueId) : List (ValueId × ValueId) :=
  blocks.flatMap fun block => (targets block).map (block, ·)

private theorem foldlM_linkTargets (read : ∀ b ∈ bs, g.targets b = .ok (dests b))
    (closed : ∀ b ∈ bs, ∀ dest ∈ dests b, dest ∈ bs) {sources : List ValueId}
    (fromBlocks : ∀ v ∈ sources, v ∈ bs) : sources.foldlM linkTargets (g.recordEdges bs edges) =
      .ok (g.recordEdges bs (edges ++ edgesOf sources dests)) := by
  have areBlocks : ∀ v ∈ bs, ∃ d, g.kind? v = some (.block d) :=
    fun v mem => kind?_of_targets (read v mem)
  induction sources generalizing edges with
  | nil => simp [edgesOf, pure, Except.pure]
  | cons source tl ih =>
    have mem := fromBlocks source List.mem_cons_self
    have step : (g.recordEdges bs edges).linkTargets source =
        .ok (g.recordEdges bs (edges ++ (dests source).map (source, ·))) := by
      unfold linkTargets
      rw [recordEdges, targets_reblock (linked_insts bs edges), read source mem]
      exact foldlM_linkBlocks areBlocks mem (closed source mem)
    rw [List.foldlM_cons, step]
    refine (ih fun v mem => fromBlocks v (List.mem_cons_of_mem _ mem)).trans ?_
    rw [List.append_assoc, edgesOf, edgesOf, List.flatMap_cons]

private theorem foldlM_clearEdges (areBlocks : ∀ v ∈ bs, ∃ d, g.kind? v = some (.block d)) :
    bs.foldlM clearEdges g = .ok (g.recordEdges bs []) := by
  have cleared : ∀ (tl done : List ValueId), (∀ v ∈ tl, v ∈ bs) →
      tl.foldlM clearEdges (g.recordEdges done []) = .ok (g.recordEdges (done ++ tl) []) := by
    intro tl
    induction tl with
    | nil => simp [pure, Except.pure]
    | cons v tl ih =>
      intro done into
      obtain ⟨d, hit⟩ := areBlocks v (into v List.mem_cons_self)
      have step : (g.recordEdges done []).clearEdges v = .ok (g.recordEdges (done ++ [v]) []) := by
        refine (modifyBlock_reblock hit _ _).trans (congrArg Except.ok (reblock_congr ?_))
        intro w d
        by_cases eq : w = v
        · subst eq
          by_cases early : w ∈ done <;> simp [linked, early]
        · simp [eq]
      rw [List.foldlM_cons, step]
      refine (ih (done ++ [v]) fun w mem => into w (List.mem_cons_of_mem _ mem)).trans ?_
      rw [List.append_assoc]
      rfl
  have s0 : g.recordEdges [] [] = g := by
    unfold recordEdges reblock
    simp only [List.not_mem_nil, if_false, Kind.edit_id]
    exact congrArg (Graph.mk · g.uses) (Array.ext (by simp) (by simp))
  have all := cleared bs [] fun _ mem => mem
  rwa [s0] at all

theorem computeEdges_eq (isIn : g.functionBlocks fn = .ok bs)
    (read : ∀ b ∈ bs, g.targets b = .ok (dests b))
    (closed : ∀ b ∈ bs, ∀ dest ∈ dests b, dest ∈ bs) :
    g.computeEdges fn = .ok (g.recordEdges bs (edgesOf bs dests)) := by
  unfold computeEdges
  rw [isIn]
  show bs.foldlM clearEdges g >>= _ = _
  rw [foldlM_clearEdges fun v mem => kind?_of_targets (read v mem)]
  exact foldlM_linkTargets read closed fun _ mem => mem

end Recorded

section Closed

private theorem eraseDups_filter (items : List ValueId) (keep : ValueId → Bool) :
    (items.filter keep).eraseDups = items.eraseDups.filter keep := by
  induction lt : items.length using Nat.strongRecOn generalizing items with
  | ind size ih =>
    cases items with
    | nil => rfl
    | cons item tl =>
      have shorter : (tl.filter fun other => !other == item).length < size := by
        rw [← lt]
        exact Nat.lt_succ_of_le (List.length_filter_le _ _)
      have tail := ih _ shorter _ rfl
      rw [List.filter_cons, List.eraseDups_cons, List.filter_cons, ← tail, List.filter_filter]
      split
      next kept =>
        rw [List.eraseDups_cons, List.filter_filter]
        exact congrArg (fun kept => item :: List.eraseDups kept) (List.filter_congr fun other _ => Bool.and_comm _ _)
      next dropped =>
        refine congrArg List.eraseDups (List.filter_congr fun other _ => ?_)
        by_cases eq : other = item
        · simp [eq, dropped]
        · simp [eq]

private theorem eraseDups_append_congr (front : List ValueId) {left right : List ValueId}
    (eq : left.eraseDups = right.eraseDups) : (front ++ left).eraseDups = (front ++ right).eraseDups := by
  rw [List.eraseDups_append, List.eraseDups_append, List.removeAll, List.removeAll, eraseDups_filter, eraseDups_filter, eq]

private theorem eraseDups_append_subset {front back : List ValueId} (into : back ⊆ front) :
    (front ++ back).eraseDups = front.eraseDups := by
  have none : back.filter (fun item => !front.contains item) = [] := by
    simpa [List.filter_eq_nil_iff] using fun item mem => into mem
  rw [List.eraseDups_append, List.removeAll, none, List.eraseDups_nil, List.append_nil]

theorem succs_edgesOf {b : ValueId} (mem : b ∈ bs) :
    (((edgesOf bs dests).filter (·.1 = b)).map (·.2)).eraseDups = (dests b).eraseDups := by
  have own : ∀ source, (((dests source).map (source, ·)).filter (·.1 = b)).map (·.2) =
      if source = b then dests source else [] := by
    intro source
    by_cases eq : source = b <;> simp [List.filter_map, Function.comp_def, eq]
  have into : ∀ tl : List ValueId, ((edgesOf tl dests).filter (·.1 = b)).map (·.2) ⊆ dests b := by
    intro tl dest
    simp only [edgesOf, List.mem_map, List.mem_filter, List.mem_flatMap, decide_eq_true_eq]
    rintro ⟨_, ⟨⟨source, _, other, goes, rfl⟩, rfl⟩, rfl⟩
    exact goes
  induction bs with
  | nil => cases mem
  | cons source tl ih =>
    rw [edgesOf, List.flatMap_cons, List.filter_append, List.map_append, own]
    by_cases eq : source = b
    · rw [if_pos eq, eq]
      exact eraseDups_append_subset (into tl)
    · rw [if_neg eq]
      exact ih (List.mem_of_ne_of_mem (Ne.symm eq) mem)

theorem preds_edgesOf (bs : List ValueId) (dests : ValueId → List ValueId) (b : ValueId) :
    (((edgesOf bs dests).filter (·.2 = b)).map (·.1)).eraseDups =
      (bs.filter (b ∈ dests ·)).eraseDups := by
  induction bs with
  | nil => rfl
  | cons source tl ih =>
    have front : (((dests source).map (source, ·)).filter (·.2 = b)).map (·.1) =
        List.replicate ((dests source).count b) source := by
      rw [List.filter_map, List.map_map, List.count_eq_length_filter]
      simp [Function.comp_def, List.map_const', beq_eq_decide]
    rw [edgesOf, List.flatMap_cons, List.filter_append, List.map_append, front, List.filter_cons]
    refine (eraseDups_append_congr _ ih).trans ?_
    split
    next goes =>
      have some : 0 < (dests source).count b := List.count_pos_iff.2 (by simpa using goes)
      obtain ⟨count, more⟩ := Nat.exists_eq_succ_of_ne_zero (Nat.ne_of_gt some)
      rw [more, List.replicate_succ, List.cons_append, List.eraseDups_cons, List.eraseDups_cons]
      simp [List.filter_append]
    next stays =>
      have none : (dests source).count b = 0 := List.count_eq_zero.2 (by simpa using stays)
      rw [none]
      rfl

end Closed

end Graph
end Midend
