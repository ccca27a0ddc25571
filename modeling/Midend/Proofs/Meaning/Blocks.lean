import Midend.Proofs.Meaning.Placed

/-! Lowering gives the code of every statement. -/
namespace Midend.Lower
open List
open Site
variable {u : Site} {st : FunctionState} {ls : List ValueId} {sc scope' mid : Scope} {s : Lowering}
  {here : ValueId}

section Branches
variable {cond : Expr} {loc : Location} {thenStmt elseStmt : Lower Unit}
  {thenCode elseCode : Plan → Spot → Spot → Prop}

private theorem if_carries (writing : u.Writing st ls sc s here) (within : sc.Within scope')
    (thens : ∀ {ls s' here}, s'.loops = s.loops → u.Writing st ls sc s' here →
      Carries u st ls scope' s' here thenStmt thenCode) :
    Carries u st ls scope' s here (do
      let val ← conditionOf loc (← expr cond)
      let thenBlock ← newBlock (some "if.then")
      let join ← newBlock (some "if.end")
      let _ ← build (Builder.branch val thenBlock join)
      build (Builder.setInsertPoint thenBlock)
      thenStmt
      jumpUnlessTerminated join
      build (Builder.setInsertPoint join)) fun c p q =>
        ∃ v thenBlock join p1 p2 n k, c.Condition (c.Computes sc cond) p v p1 ∧
          c.Branches p1 v thenBlock join ∧ thenCode c ⟨thenBlock, 0, n⟩ p2 ∧
          c.Jumps p2 join ∧ q = ⟨join, 0, k⟩ ∧ p1.size ≤ n ∧ p.size ≤ k := by
  refine condition_carries writing ?_
  intro v s1 here1 passed1 plain writing1 tests
  have inner1 := writing.inner.passed passed1
  refine (newBlock_waits inner1.toBuilding).bind ?_
  intro thenBlock s2 ⟨reached2, spot2, _⟩
  refine (newBlock_waits reached2.building).bind ?_
  intro join s3 ⟨reached3, spot3, _⟩
  have bs := reached2.trans reached3
  refine (branch_follows (inner1.reached bs) (bs.advances.grows.plain plain)
    (bs.waiting thenBlock (by simp)).inside (bs.waiting join (by simp)).inside).bind ?_
  intro _ s4 ⟨⟨reached4, last4⟩, branches⟩
  have way := passed1.toReached.trans (bs.trans reached4)
  refine enter_carries writing way last4 (writing.seated.grown way.advances.grows way.building.names) (.refl sc) ?_
  intro s5 writing5 reached5 same5 spot5
  refine part_carries (thens reached5.loops writing5) writing5 within reached5
    (reached5.waiting join (by simp)).inside ?_
  intro slots' s6 here6 longer grows6 reached6 last6 seated6 codes
  refine (join_carries reached6 last6 seated6).mono (fun _ bad => bad) ?_
  intro _ t ⟨passed, seated, eq, spot⟩
  refine ⟨slots', join, longer, passed, seated, fun c hosts => ?_⟩
  rw [eq] at hosts
  obtain ⟨p2, cs, jumps⟩ := codes c hosts
  have hosts4 : c.Hosts u st ls s4.module.graph := same5 ▸ hosts.before longer grows6
  have hosts1 := hosts4.before prefix_rfl (bs.trans reached4).advances.grows
  have branched := branches c hosts4.toIncludes
  rw [spot3, spot2] at branched
  rw [spot5] at cs
  refine ⟨v, thenBlock, join, _, p2, _, _, tests c hosts1, branched, cs, jumps, spot, ?_,
    passed.advances.grows.size⟩
  exact same5 ▸ (bs.trans reached4).advances.grows.size

private theorem ifElse_carries (writing : u.Writing st ls sc s here) (within : sc.Within mid)
    (within' : mid.Within scope')
    (thens : ∀ {ls s' here}, s'.loops = s.loops → u.Writing st ls sc s' here →
      Carries u st ls mid s' here thenStmt thenCode)
    (elses : ∀ {ls s' here}, s'.loops = s.loops → u.Writing st ls mid s' here →
      Carries u st ls scope' s' here elseStmt elseCode) :
    Carries u st ls scope' s here (do
      let val ← conditionOf loc (← expr cond)
      let thenBlock ← newBlock (some "if.then")
      let elseBlock ← newBlock (some "if.else")
      let join ← newBlock (some "if.end")
      let _ ← build (Builder.branch val thenBlock elseBlock)
      build (Builder.setInsertPoint thenBlock)
      thenStmt
      jumpUnlessTerminated join
      build (Builder.setInsertPoint elseBlock)
      elseStmt
      jumpUnlessTerminated join
      build (Builder.setInsertPoint join)) fun c p q =>
        ∃ v thenBlock elseBlock join p1 p2 p3 n k j, c.Condition (c.Computes sc cond) p v p1 ∧
          c.Branches p1 v thenBlock elseBlock ∧ thenCode c ⟨thenBlock, 0, n⟩ p2 ∧ c.Jumps p2 join ∧
          elseCode c ⟨elseBlock, 0, k⟩ p3 ∧ c.Jumps p3 join ∧ q = ⟨join, 0, j⟩ ∧ p1.size ≤ n ∧ p1.size ≤ k ∧
          p.size ≤ j := by
  refine condition_carries writing ?_
  intro v s1 here1 passed1 plain writing1 tests
  have inner1 := writing.inner.passed passed1
  refine (newBlock_waits inner1.toBuilding).bind ?_
  intro thenBlock s2 ⟨reached2, spot2, _⟩
  refine (newBlock_waits reached2.building).bind ?_
  intro elseBlock s3 ⟨reached3, spot3, _⟩
  refine (newBlock_waits reached3.building).bind ?_
  intro join s4 ⟨reached4, spot4, _⟩
  have bs := (reached2.trans reached3).trans reached4
  refine (branch_follows (inner1.reached bs) (bs.advances.grows.plain plain)
    (bs.waiting thenBlock (by simp)).inside (bs.waiting elseBlock (by simp)).inside).bind ?_
  intro _ s5 ⟨⟨reached5, last5⟩, branches⟩
  have way := passed1.toReached.trans (bs.trans reached5)
  refine enter_carries writing way last5 (writing.seated.grown way.advances.grows way.building.names) (.refl sc) ?_
  intro s6 writing6 reached6 same6 spot6
  refine part_carries (thens reached6.loops writing6) writing6 within reached6
    (reached6.waiting join (by simp)).inside ?_
  intro slots7 s7 here7 longer7 grows7 reached7 last7 seated7 codes7
  refine enter_carries writing reached7 last7 seated7 within ?_
  intro s8 writing8 reached8 same8 spot8
  refine part_carries (elses reached8.loops writing8) writing8 within' reached8
    (reached8.waiting join (by simp)).inside ?_
  intro slots9 s9 here9 longer9 grows9 reached9 last9 seated9 codes9
  refine (join_carries reached9 last9 seated9).mono (fun _ bad => bad) ?_
  intro _ t ⟨passed, seated, eq, spot⟩
  refine ⟨slots9, join, longer7.trans longer9, passed, seated, fun c hosts => ?_⟩
  rw [eq] at hosts
  obtain ⟨p3, codeElse, jumpsElse⟩ := codes9 c hosts
  have hosts7 : c.Hosts u st slots7 s7.module.graph := same8 ▸ hosts.before longer9 grows9
  obtain ⟨p2, codeThen, jumpsThen⟩ := codes7 c hosts7
  have hosts5 : c.Hosts u st ls s5.module.graph := same6 ▸ hosts7.before longer7 grows7
  have hosts1 := hosts5.before prefix_rfl (bs.trans reached5).advances.grows
  have branched := branches c hosts5.toIncludes
  rw [spot4, spot3, spot2] at branched
  rw [spot6] at codeThen
  rw [spot8] at codeElse
  have branchSize : s1.module.graph.values.size ≤ s6.module.graph.values.size :=
    same6 ▸ (bs.trans reached5).advances.grows.size
  exact ⟨v, thenBlock, elseBlock, join, _, p2, p3, _, _, _, tests c hosts1, branched, codeThen, jumpsThen,
    codeElse, jumpsElse, spot, branchSize, same8 ▸ Nat.le_trans branchSize grows7.size, passed.advances.grows.size⟩

end Branches

section Loops
variable {cond : Expr} {loc : Location} {body : Lower Unit} {cs : Plan → Spot → Spot → Prop}
  {bodyCode : LoopTargets → Plan → Spot → Spot → Prop}

private theorem withLoop_carries {dests : LoopTargets} (writing : u.Writing st ls sc s here)
    (continues : dests.continueBlock ∈ s.module.graph.layout u.func)
    (breaks : dests.breakBlock ∈ s.module.graph.layout u.func)
    (carries : ∀ {ls s here}, s.loops.head? = some dests → u.Writing st ls sc s here →
      Carries u st ls scope' s here body cs) :
    Carries u st ls scope' s here (withLoop dests body) cs := by
  refine .between ?_
  refine Ends.mono (carries rfl (writing.loop continues breaks)) (fun _ _ => trivial) ?_
  intro _ t ⟨slots', there, longer, passed, seated, codes⟩
  refine ⟨slots', there, longer, ⟨⟨passed.building, passed.advances, passed.waiting, passed.nodup, ?_⟩, passed.opened⟩,
    seated, codes⟩
  show t.loops.tail = s.loops
  rw [passed.loops]
  rfl

private theorem while_carries (writing : u.Writing st ls sc s here) (within : sc.Within scope')
    (carries : ∀ {ls dests s here}, s.loops.head? = some dests → u.Writing st ls sc s here →
      Carries u st ls scope' s here body (bodyCode dests)) :
    Carries u st ls scope' s here (do
      let condBlock ← newBlock (some "while.cond")
      let bodyBlock ← newBlock (some "while.body")
      let join ← newBlock (some "while.end")
      jumpUnlessTerminated condBlock
      build (Builder.setInsertPoint condBlock)
      let val ← conditionOf loc (← expr cond)
      let _ ← build (Builder.branch val bodyBlock join)
      build (Builder.setInsertPoint bodyBlock)
      withLoop ⟨condBlock, join⟩ body
      jumpUnlessTerminated condBlock
      build (Builder.setInsertPoint join)) fun c p q =>
        ∃ v condBlock bodyBlock join p1 p2 n k j, c.Jumps p condBlock ∧
          c.Condition (c.Computes sc cond) ⟨condBlock, 0, n⟩ v p1 ∧
          c.Branches p1 v bodyBlock join ∧ bodyCode ⟨condBlock, join⟩ c ⟨bodyBlock, 0, k⟩ p2 ∧
          c.Jumps p2 condBlock ∧ q = ⟨join, 0, j⟩ ∧ p.size ≤ n ∧ p1.size ≤ k ∧ p.size ≤ j := by
  have inner := writing.inner
  refine (newBlock_waits inner.toBuilding).bind ?_
  intro condBlock s1 ⟨reached1, spot1, last1⟩
  refine (newBlock_waits reached1.building).bind ?_
  intro bodyBlock s2 ⟨reached2, spot2, last2⟩
  refine (newBlock_waits reached2.building).bind ?_
  intro join s3 ⟨reached3, spot3, last3⟩
  have bs := (reached1.trans reached2).trans reached3
  have opened3 : s3.module.graph.lastOf here = none := by
    rw [last3, last2, last1]
    exact writing.opened
  refine (jumpUnlessTerminated_follows (inner.reached bs) opened3
    (bs.waiting condBlock (by simp)).inside).bind ?_
  intro _ s4 ⟨⟨reached4, last4⟩, jumps4⟩
  have toCond := bs.trans reached4
  refine enter_carries writing toCond last4 (writing.seated.grown toCond.advances.grows toCond.building.names)
    (.refl sc) ?_
  intro s5 writing5 reached5 same5 spot5
  refine condition_carries writing5 ?_
  intro v s6 here6 passed6 plain writing6 tests
  have inner6 := writing5.inner.passed passed6
  have tested := reached5.trans passed6.toReached
  refine (branch_follows inner6 plain (tested.waiting bodyBlock (by simp)).inside
    (tested.waiting join (by simp)).inside).bind ?_
  intro _ s7 ⟨⟨reached7, last7⟩, branches⟩
  have toBody := tested.trans reached7
  refine enter_carries writing toBody last7 (writing5.seated.grown (passed6.toReached.trans reached7).advances.grows
    toBody.building.names) (.refl sc) ?_
  intro s8 writing8 reached8 same8 spot8
  have condStays : condBlock ∈ s8.module.graph.layout u.func := by
    rw [same8]
    exact (passed6.toReached.trans reached7).advances.layout.subset reached5.building.member
  refine part_carries (withLoop_carries writing8 condStays (reached8.waiting join (by simp)).inside carries)
    writing8 within reached8 condStays ?_
  intro slots' s9 here9 longer grows9 reached9 last9 seated9 codes
  refine (join_carries reached9 last9 seated9).mono (fun _ bad => bad) ?_
  intro _ t ⟨passed, seated, eq, spot⟩
  refine ⟨slots', join, longer, passed, seated, fun c hosts => ?_⟩
  rw [eq] at hosts
  obtain ⟨p2, cs, jumps⟩ := codes c hosts
  have hosts7 : c.Hosts u st ls s7.module.graph := same8 ▸ hosts.before longer grows9
  have hosts6 := hosts7.before prefix_rfl reached7.advances.grows
  have hosts4 : c.Hosts u st ls s4.module.graph :=
    same5 ▸ hosts6.before prefix_rfl passed6.advances.grows
  have jumped := jumps4 c hosts4.toIncludes
  rw [spot3, spot2, spot1] at jumped
  rw [spot8] at cs
  rw [spot5] at tests
  exact ⟨v, condBlock, bodyBlock, join, _, p2, _, _, _, jumped, tests c hosts6, branches c hosts7.toIncludes,
    cs, jumps, spot, reached5.advances.grows.size, same8 ▸ reached7.advances.grows.size, passed.advances.grows.size⟩

end Loops

section Scopes
variable {inner : Scope} {x : Lower Unit} {cs : Plan → Spot → Spot → Prop}

private theorem withScope_carries (writing : u.Writing st ls sc s here) (within : sc.push.Within inner)
    (carries : ∀ {ls s' here}, s'.loops = s.loops → u.Writing st ls sc.push s' here →
      Carries u st ls inner s' here x cs) :
    Carries u st ls (sc.leave inner) s here (withScope x) cs := by
  refine .between ?_
  refine Ends.mono (carries rfl writing.push) (fun _ _ => trivial) ?_
  intro _ t ⟨slots', there, longer, passed, seated, codes⟩
  have eq : t.module.symbols.inner.length = s.module.symbols.push.inner.length := by
    rw [← seated.inner.length_eq, within.depth, writing.push.seated.inner.length_eq]
  obtain ⟨made, _⟩ := passed.building.pop eq
  exact ⟨slots', there, longer, ⟨⟨made, passed.advances, passed.waiting, passed.nodup, passed.loops⟩,
    passed.opened⟩, seated.leave within, codes⟩

private theorem compound_carries (writing : u.Writing st ls sc s here) (within : sc.push.Within inner)
    (carries : ∀ {ls s' here}, s'.loops = s.loops → u.Writing st ls sc.push s' here →
      Carries u st ls inner s' here x cs) :
    Carries u st ls (sc.leave inner) s here (do
      let b ← newBlock none
      jumpUnlessTerminated b
      build (Builder.setInsertPoint b)
      withScope x) fun c p q => ∃ b n, c.Jumps p b ∧ cs c ⟨b, 0, n⟩ q ∧ p.size ≤ n := by
  refine (newBlock_waits writing.inner.toBuilding).bind ?_
  intro b s1 ⟨reached1, spot1, last1⟩
  refine (jumpUnlessTerminated_follows (writing.inner.reached reached1) (last1.trans writing.opened)
    (reached1.waiting b (by simp)).inside).bind ?_
  intro _ s2 ⟨⟨reached2, last2⟩, jumps⟩
  have way := reached1.trans reached2
  refine enter_carries writing way last2 (writing.seated.grown way.advances.grows way.building.names) (.refl sc) ?_
  intro s3 writing3 reached3 same3 spot3
  refine Ends.mono (withScope_carries writing3 within fun eq => carries (eq.trans reached3.loops))
    (fun _ _ => trivial) ?_
  intro _ t ⟨slots', there, longer, passed, seated, codes⟩
  refine ⟨slots', there, longer, ⟨reached3.trans passed.toReached, fun _ => passed.opened writing3.opened⟩, seated, ?_⟩
  intro c hosts
  have hosts2 : c.Hosts u st ls s2.module.graph := same3 ▸ hosts.before longer passed.advances.grows
  have jumped := jumps c hosts2.toIncludes
  rw [spot1] at jumped
  have cs := codes c hosts
  rw [spot3] at cs
  exact ⟨b, _, jumped, cs, reached3.advances.grows.size⟩

end Scopes

theorem Carries.leaving {cs code' : Plan → Spot → Spot → Prop} {x : Lower Unit}
    (carries : Carries u st ls scope' s here x cs)
    (weaker : ∀ c : Plan, ∀ p q, st.exit = some c.exit → st.returnSlot = c.result → cs c p q →
      code' c p q) : Carries u st ls scope' s here x code' := by
  refine Ends.mono carries (fun _ _ => trivial) ?_
  intro _ t ⟨slots', there, longer, passed, seated, codes⟩
  exact ⟨slots', there, longer, passed, seated, fun c hosts =>
    weaker _ _ _ hosts.exit hosts.result (codes c hosts)⟩

private theorem result_carries {e : Expr} {exit : ValueId} (writing : u.Writing st ls sc s here)
    (into : exit ∈ s.module.graph.layout u.func) :
    Carries u st ls sc s here (do
      let res ← expr e
      let _ ← build (match st.returnSlot with
        | some slot => Builder.assign slot res
        | none => Builder.valueOf res)
      let _ ← build (Builder.jump exit)
      continueUnreachable) fun c p _ => ∃ x p2 p1, c.Computes sc e p x p2 ∧
        c.Jumps p1 exit ∧ match st.returnSlot with
          | some slot => ∃ v, c.Assigns p2 slot x v p1
          | none => ∃ v, c.Loads p2 x v p1 := by
  cases isSlot : st.returnSlot with
  | none =>
    refine ((expr_follows sc e writing.inner).carries writing fun x s1 here1 passed1 plain writing1 =>
      (valueOf_follows _ writing1.inner plain).carries writing1 fun v s2 here2 passed2 _ writing2 =>
        leave_carries writing2 ((passed1.trans passed2).advances.layout.subset into)).mono ?_
    intro c p q ⟨x, p1, cs, v, p2, loads, jumps⟩
    exact ⟨x, p1, p2, cs, jumps, v, loads⟩
  | some slot =>
    have plainSlot := writing.filling.building.returnSlot slot isSlot
    refine ((expr_follows sc e writing.inner).carries writing fun x s1 here1 passed1 plain writing1 =>
      Follows.carries (assign_follows writing1.inner (passed1.plain plainSlot) plain) writing1
        fun _ s2 here2 passed2 _ writing2 =>
          leave_carries writing2 ((passed1.trans passed2).advances.layout.subset into)).mono ?_
    intro c p q ⟨x, p1, cs, v, p2, assigns, jumps⟩
    exact ⟨x, p1, p2, cs, jumps, v, assigns⟩

private theorem ret_carries {val : Option Expr} (writing : u.Writing st ls sc s here) :
    Carries u st ls sc s here (ret val) fun c p _ => c.Leaves sc val p := by
  have made := writing.filling.building
  obtain ⟨exit, isExit⟩ := Option.isSome_iff_exists.1 writing.filling.leaves
  have into := made.exit exit isExit
  refine Carries.get ?_
  rw [made.current]
  dsimp only
  rw [isExit]
  cases val with
  | none =>
    refine (leave_carries writing into).leaving ?_
    intro c p q sameExit _ jumps
    cases isExit.symm.trans sameExit
    exact ⟨p, jumps, rfl⟩
  | some e =>
    refine (result_carries writing into).leaving ?_
    intro c p q sameExit sameResult ⟨x, p2, p1, cs, jumps, keeps⟩
    cases isExit.symm.trans sameExit
    refine ⟨p1, jumps, ?_⟩
    rw [← sameResult]
    cases isSlot : st.returnSlot with
    | none =>
      rw [isSlot] at keeps
      obtain ⟨v, loads⟩ := keeps
      exact ⟨v, x, p2, cs, loads⟩
    | some slot =>
      rw [isSlot] at keeps
      obtain ⟨v, assigns⟩ := keeps
      exact ⟨x, p2, v, cs, assigns⟩

private theorem warning_carries {loc : Location} {text : String} (writing : u.Writing st ls sc s here) :
    Carries u st ls sc s here (withContext loc (build (Builder.reportWarning text)))
      fun _ p q => q = p := by
  refine withContext_carries writing fun s _ writing => ?_
  refine .build fun _ m done => ?_
  obtain rfl := Builder.modify_ok.1 done
  exact ⟨ls, here, prefix_rfl, ⟨⟨writing.filling.building.elsewhere _ _, .refl _ _ _, by simp, nodup_nil,
    rfl⟩, id⟩, writing.seated.grown (.refl _ _) rfl, fun _ _ => rfl⟩

mutual
/-- Lowering a statement makes code that performs it. -/
theorem stmt_carries (statement : Stmt) {loop : Option LoopTargets} {ls : List ValueId} {sc : Scope} {s : Lowering}
    {here : ValueId} (isLoop : s.loops.head? = loop) (writing : u.Writing st ls sc s here) :
    Carries u st ls (statement.after sc) s here (stmt statement) fun c => c.Performs loop sc statement := by
  cases statement with
  | expr val loc =>
    refine withContext_carries writing fun s _ writing => ?_
    refine ((expr_follows sc val writing.inner).carries writing
      fun _ t there _ _ writing' => pure_carries writing').mono ?_
    intro c p q ⟨v, p1, cs, eq⟩
    exact ⟨v, eq ▸ cs⟩
  | compound body loc =>
    refine withContext_carries writing fun s eq writing => ?_
    have within : sc.push.Within (Stmt.afterAll sc.push body) := Stmt.within_afterAll body (Nat.succ_pos _)
    exact compound_carries writing within fun same' into =>
      stmts_carries body ((congrArg List.head? (same'.trans eq)).trans isLoop) into
  | declare decls loc => exact withContext_carries writing fun s _ writing => localVars_carries writing
  | ifElse cond thenStmt elseStmt loc =>
    cases elseStmt with
    | none =>
      refine withContext_carries writing fun s eq writing => ?_
      exact if_carries writing (thenStmt.within_after writing.nested) fun same' into =>
        stmt_carries thenStmt ((congrArg List.head? (same'.trans eq)).trans isLoop) into
    | some elseStmt =>
      refine withContext_carries writing fun s eq writing => ?_
      have first := thenStmt.within_after writing.nested
      have second := elseStmt.within_after (first.depth ▸ writing.nested)
      exact ifElse_carries writing first second
        (fun same' into => stmt_carries thenStmt ((congrArg List.head? (same'.trans eq)).trans isLoop) into)
        (fun same' into => stmt_carries elseStmt ((congrArg List.head? (same'.trans eq)).trans isLoop) into)
  | whileDo cond body loc =>
    refine withContext_carries writing fun s _ writing => ?_
    exact while_carries writing (body.within_after writing.nested) fun isInner into => stmt_carries body isInner into
  | breakLoop loc =>
    refine withContext_carries writing fun s eq writing => Carries.get ?_
    rw [eq, isLoop]
    cases loop with
    | none => exact Ends.fail fun _ => trivial
    | some dests =>
      have into := writing.filling.loops dests (mem_of_mem_head? ((congrArg List.head? eq).trans isLoop))
      exact (leave_carries writing into.2).ordered.mono fun _ _ _ jumps => ⟨dests, rfl, jumps⟩
  | continueLoop loc =>
    refine withContext_carries writing fun s eq writing => Carries.get ?_
    rw [eq, isLoop]
    cases loop with
    | none => exact Ends.fail fun _ => trivial
    | some dests =>
      have into := writing.filling.loops dests (mem_of_mem_head? ((congrArg List.head? eq).trans isLoop))
      exact (leave_carries writing into.1).ordered.mono fun _ _ _ jumps => ⟨dests, rfl, jumps⟩
  | ret val loc => exact withContext_carries writing fun s _ writing => (ret_carries writing).ordered
  | empty loc => exact withContext_carries writing fun s _ writing => pure_carries writing
termination_by structural statement

theorem stmts_carries (body : List Stmt) {jumped warned : Bool} {loop : Option LoopTargets} {ls : List ValueId}
    {sc : Scope} {s : Lowering} {here : ValueId} (isLoop : s.loops.head? = loop)
    (writing : u.Writing st ls sc s here) :
    Carries u st ls (Stmt.afterAll sc body) s here (stmts jumped warned body)
      fun c => c.PerformsAll loop sc body := by
  cases body with
  | nil => exact pure_carries writing
  | cons statement tl =>
    have lowered : ∀ {warned ls} {s : Lowering} {here}, s.loops.head? = loop → u.Writing st ls sc s here →
        Carries u st ls (Stmt.afterAll sc (statement :: tl)) s here (do
          stmt statement
          stmts (jumped || statement.jumps) warned tl) fun c => c.PerformsAll loop sc (statement :: tl) :=
      fun isLoop writing => (stmt_carries statement isLoop writing).bind writing (statement.within_after writing.nested)
        fun slots' t there eq writing' => stmts_carries tl ((congrArg List.head? eq).trans isLoop) writing'
    rw [stmts]
    dsimp only
    split
    · refine ((warning_carries writing).bind writing (.refl sc) fun slots' t there eq writing' =>
        lowered ((congrArg List.head? eq).trans isLoop) writing').mono ?_
      intro c p q ⟨p1, eq, cs⟩
      subst eq
      exact cs
    · exact lowered isLoop writing
termination_by structural body
end

end Midend.Lower
