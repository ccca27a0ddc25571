import Midend.Proofs.Meaning.Seats

/-! Lowering a statement gives the code of the statement, and the variables that it declares have
the next slots. -/
namespace Midend
open List Builder

namespace Site
variable {site : Site} {st : FunctionState} {ls slots' : List ValueId}
  {sc scope' : Scope} {s t : Lowering} {here there : ValueId} {pending : List ValueId}

structure Writing (site : Site) (state : FunctionState) (slots : List ValueId) (scope : Scope) (s : Lowering)
    (here : ValueId) : Prop where
  filling : site.Filling s.module.symbols state s here
  apart : here ≠ site.entry
  opened : s.module.graph.lastOf here = none
  seated : site.Seated state slots scope s.module

namespace Writing

section
variable (writing : site.Writing st ls sc s here)
include writing

theorem inner : site.Inner s.module.symbols st s.module here :=
  ⟨writing.filling.building, writing.apart⟩

theorem nested : 0 < sc.table.inner.length := by
  rw [writing.seated.inner.length_eq]
  exact writing.filling.nested

theorem seats {c : Plan} (hosts : c.Hosts site st ls s.module.graph) : c.Seats sc s.module.symbols :=
  writing.seated.seats hosts writing.filling.building.outermost

theorem reached (path : site.Reached t.module.symbols st s here t there pending)
    (opened : t.module.graph.lastOf there = none) (seated : site.Seated st slots' scope' t.module)
    (within : sc.Within scope') : site.Writing st slots' scope' t there where
  filling := by
    refine writing.filling.reached path ?_
    rw [← seated.inner.length_eq, within.depth, writing.seated.inner.length_eq]
  apart := (writing.inner.reached path).apart
  opened := opened
  seated := seated

theorem advanced (path : site.Reached s.module.symbols st s here t there pending)
    (opened : t.module.graph.lastOf there = none) : site.Writing st ls sc t there := by
  have eq := path.building.names
  rw [← eq] at path
  exact writing.reached path opened (writing.seated.grown path.advances.grows eq) (.refl sc)

theorem passed
    (passed : site.Passed s.module.symbols st s here t there) : site.Writing st ls sc t there :=
  writing.advanced passed.toReached (passed.opened writing.opened)

theorem elsewhere (contexts : List Location) (report : Report) :
    site.Writing st ls sc { s with module := { s.module with contexts, report } } here where
  filling := ⟨writing.filling.building.elsewhere contexts report, writing.filling.loops, writing.filling.nested,
    writing.filling.leaves⟩
  apart := writing.apart
  opened := writing.opened
  seated := writing.seated.grown (.refl _ _) rfl

theorem push : site.Writing st ls sc.push { s with module.symbols := s.module.symbols.push } here where
  filling := ⟨writing.filling.building.push, writing.filling.loops, Nat.succ_pos _, writing.filling.leaves⟩
  apart := writing.apart
  opened := writing.opened
  seated := writing.seated.push

theorem loop {dests : LoopTargets} (continues : dests.continueBlock ∈ s.module.graph.layout site.func)
    (breaks : dests.breakBlock ∈ s.module.graph.layout site.func) :
    site.Writing st ls sc { s with loops := dests :: s.loops } here where
  filling := by
    have filling := writing.filling
    refine ⟨filling.building, ?_, filling.nested, filling.leaves⟩
    intro other member
    rcases mem_cons.1 member with rfl | member
    · exact ⟨continues, breaks⟩
    · exact filling.loops other member
  apart := writing.apart
  opened := writing.opened
  seated := writing.seated

end

end Writing

end Site

namespace Lower
open Site
variable {site : Site} {scopes : ScopeTable ValueId} {st : FunctionState} {ls : List ValueId}
  {sc scope' mid : Scope} {s : Lowering} {here : ValueId} {broken : Lowering → Prop}

section Sequences
variable {code code' : Plan → Spot → Spot → Prop} {x y : Lower Unit}

def Carries (site : Site) (state : FunctionState) (slots : List ValueId) (scope' : Scope) (s : Lowering)
    (here : ValueId) (x : Lower Unit) (code : Plan → Spot → Spot → Prop) : Prop :=
  Ends x s (fun _ => True) fun _ after => ∃ slots' there, slots <+: slots' ∧
    site.Passed after.module.symbols state s here after there ∧ site.Seated state slots' scope' after.module ∧
    ∀ plan : Plan, plan.Hosts site state slots' after.module.graph →
      code plan (s.module.spot here) (after.module.spot there)

theorem Carries.mono (carries : Carries site st ls scope' s here x code)
    (weaker : ∀ c p q, code c p q → code' c p q) : Carries site st ls scope' s here x code' := by
  refine Ends.mono carries (fun _ _ => trivial) ?_
  intro _ t ⟨slots', there, longer, passed, seated, codes⟩
  exact ⟨slots', there, longer, passed, seated, fun c hosts => weaker _ _ _ (codes c hosts)⟩

theorem Carries.ordered (carries : Carries site st ls scope' s here x code) :
    Carries site st ls scope' s here x fun c p q => code c p q ∧ p.size ≤ q.size := by
  refine Ends.mono carries (fun _ _ => trivial) ?_
  intro _ t ⟨slots', there, longer, passed, seated, codes⟩
  exact ⟨slots', there, longer, passed, seated, fun c hosts => ⟨codes c hosts, passed.advances.grows.size⟩⟩

theorem Carries.bind (first : Carries site st ls mid s here x code)
    (writing : site.Writing st ls sc s here) (within : sc.Within mid)
    (second : ∀ slots' t there, t.loops = s.loops → site.Writing st slots' mid t there →
      Carries site st slots' scope' t there y code') :
    Carries site st ls scope' s here (do x; y) fun c p q => ∃ p1, code c p p1 ∧ code' c p1 q := by
  refine Ends.bind first ?_
  intro _ t ⟨slots1, there, longer, passed, seated, codes⟩
  have writing1 := writing.reached passed.toReached (passed.opened writing.opened) seated within
  refine Ends.mono (second slots1 t there passed.loops writing1) (fun _ _ => trivial) ?_
  intro _ last ⟨slots2, final, longer', passed', seated', codes'⟩
  refine ⟨slots2, final, longer.trans longer', passed.trans passed', seated', fun c hosts => ?_⟩
  exact ⟨_, codes c (hosts.before longer' passed'.advances.grows), codes' c hosts⟩

theorem pure_carries (writing : site.Writing st ls sc s here) :
    Carries site st ls sc s here (pure ()) fun _ p q => q = p :=
  .pure ⟨ls, here, prefix_rfl, .refl writing.filling.building, writing.seated, fun _ _ => rfl⟩

theorem Carries.get {next : Lowering → Lower Unit} (carries : Carries site st ls scope' s here (next s) code) :
    Carries site st ls scope' s here (MonadState.get >>= next) code :=
  Ends.get carries

theorem withContext_carries {location : Location} (writing : site.Writing st ls sc s here)
    (carries : ∀ s', s'.loops = s.loops → site.Writing st ls sc s' here →
      Carries site st ls scope' s' here x code) :
    Carries site st ls scope' s here (withContext location x) code := by
  refine .between ?_
  refine Ends.mono (carries { s with module.contexts := location :: s.module.contexts } rfl
    (writing.elsewhere _ s.module.report)) (fun _ _ => trivial) ?_
  intro _ t ⟨slots', there, longer, passed, seated', codes⟩
  exact ⟨slots', there, longer, ⟨⟨passed.building.elsewhere _ t.module.report, passed.advances, passed.waiting,
    passed.nodup, passed.loops⟩, passed.opened⟩, seated'.grown (.refl _ _) rfl, codes⟩

theorem Follows.carries {x : Lower ValueId} {next : ValueId → Lower Unit} {giving : Plan → Plan.Giving}
    {rest : ValueId → Plan → Spot → Spot → Prop}
    (first : Follows site s.module.symbols st (·.Seats sc s.module.symbols) s here x giving)
    (writing : site.Writing st ls sc s here)
    (second : ∀ v t there, site.Passed s.module.symbols st s here t there → t.module.graph.Plain v →
      site.Writing st ls sc t there → Carries site st ls scope' t there (next v) (rest v)) :
    Carries site st ls scope' s here (x >>= next) fun c p q => ∃ v p1, giving c p v p1 ∧ rest v c p1 q := by
  refine Ends.bind first ?_
  intro v t ⟨there, passed, plain, gives⟩
  have writing1 := writing.passed passed
  refine Ends.mono (second v t there passed plain writing1) (fun _ _ => trivial) ?_
  intro _ last ⟨slots', final, longer, passed', seated, codes⟩
  refine ⟨slots', final, longer, passed.trans passed', seated, fun c hosts => ?_⟩
  have hosts1 := hosts.before longer passed'.advances.grows
  have seats := writing.seats (hosts1.before prefix_rfl passed.advances.grows)
  exact ⟨v, _, gives c hosts1.toIncludes seats, codes c hosts⟩

end Sequences

section Declarations
variable {name : String} {ty : Ty} {slot : ValueId}

section
variable (writing : site.Writing st ls sc s here)
include writing

private theorem alloca_carries {next : ValueId → Lower Unit} {rest : ValueId → Plan → Spot → Spot → Prop}
    (second : ∀ slot t, site.Writing st ls sc t here → t.module.graph.Plain slot →
      site.Free st ls t.module.graph slot ty → Carries site st ls scope' t here (next slot) (rest slot)) :
    Carries site st ls scope' s here (build (Builder.alloca ty (some name)) >>= next) fun c p q =>
      ∃ slot, c.Slotted slot ty (some name) ∧ rest slot c p.grow q := by
  have inner := writing.inner
  have made : Ends (build (Builder.alloca ty (some name))) s (fun _ => True) fun slot t =>
      (site.Passed s.module.symbols st s here t here ∧ t.module.graph.Plain slot ∧
        site.Free st ls t.module.graph slot ty) ∧ t.module.spot here = (s.module.spot here).grow ∧
      ∀ c : Plan, c.Includes site t.module.graph → c.Slotted slot ty (some name) := by
    refine .build fun slot module done => ?_
    obtain ⟨straight, plain⟩ := inner.toBuilding.alloca done
    exact ⟨⟨straight.passed, plain, writing.seated.free inner.toBuilding done⟩, inner.spot_alloca done,
      fun _ includes => inner.toBuilding.slotted done includes⟩
  refine made.bind ?_
  intro slot s1 ⟨⟨passed, plain, free⟩, spot, slotted⟩
  refine Ends.mono (second slot s1 (writing.passed passed) plain free) (fun _ _ => trivial) ?_
  intro _ t ⟨slots', there, longer, passed', seated, codes⟩
  refine ⟨slots', there, longer, passed.trans passed', seated, fun c hosts => ⟨slot, ?_, ?_⟩⟩
  · exact slotted c (hosts.toIncludes.before passed'.advances.grows)
  · rw [← spot]
    exact codes c hosts

private theorem declare_carries (plain : s.module.graph.Plain slot) (free : site.Free st ls s.module.graph slot ty) :
    Carries site st ls (sc.declare name ty) s here (build (Builder.declare name slot)) fun c p q =>
      q = p ∧ c.slots[sc.declared]? = some slot := by
  refine .build fun _ module done => ?_
  obtain rfl := modify_ok.1 done
  have nested := writing.filling.nested
  obtain ⟨declared, _⟩ := writing.filling.building.declare nested plain name
  refine ⟨ls ++ [slot], here, prefix_append _ _, ⟨⟨declared, .refl _ _ _, by simp, nodup_nil, rfl⟩, id⟩,
    writing.seated.declare nested free, fun c hosts => ⟨rfl, ?_⟩⟩
  obtain ⟨rest, eq⟩ := hosts.seats
  rw [← eq, ← writing.seated.count, append_assoc, getElem?_append_right (Nat.le_refl _), Nat.sub_self]
  rfl

private theorem localVar_carries {d : Decl} :
    Carries site st ls (sc.declare d.name d.ty) s here (localVar d) fun c => c.Declares sc [d] := by
  refine withContext_carries writing fun s _ writing => ?_
  cases initial : d.initializer with
  | none =>
    refine (alloca_carries writing fun slot s1 writing1 plain free => declare_carries writing1 plain free).mono ?_
    rintro c p q ⟨slot, slotted, eq, isSlot⟩
    exact ⟨slot, q, isSlot, slotted, by rw [initial]; exact eq, rfl⟩
  | some e =>
    refine (alloca_carries writing fun slot s1 writing1 plain free =>
      (expr_follows sc e writing1.inner).carries writing1 fun u s2 here2 passed2 plainU writing2 =>
        Follows.carries (assign_follows writing2.inner (passed2.plain plain) plainU) writing2
          fun _ s3 here3 passed3 _ writing3 => declare_carries writing3 (passed3.plain (passed2.plain plain))
            (free.mono (passed2.advances.grows.trans passed3.advances.grows))).mono ?_
    rintro c p q ⟨slot, slotted, u, p1, computes, v, p2, assigns, eq, isSlot⟩
    subst eq
    exact ⟨slot, _, isSlot, slotted, by rw [initial]; exact ⟨u, p1, v, computes, assigns⟩, rfl⟩

theorem localVars_carries {decls : List Decl} :
    Carries site st ls (decls.foldl (fun sc d => sc.declare d.name d.ty) sc) s here (decls.forM localVar)
      fun c => c.Declares sc decls := by
  induction decls generalizing ls sc s here with
  | nil => exact pure_carries writing
  | cons d rest ih =>
    refine ((localVar_carries writing).bind writing (.declare writing.nested d.name d.ty)
      fun slots' t there _ writing' => ih writing').mono ?_
    intro c p q ⟨p1, ⟨slot, _, isSlot, slotted, code, eq⟩, others⟩
    exact ⟨slot, _, isSlot, slotted, code, eq ▸ others⟩

end

end Declarations

section Control
variable {start : Lowering} {origin dest : ValueId} {later : List ValueId} {code : Plan → Spot → Spot → Prop}
  {x next : Lower Unit} {final : Unit → Lowering → Prop}
variable {slots' : List ValueId}

theorem jumpUnlessTerminated_follows (inner : site.Inner scopes st s.module here)
    (opened : s.module.graph.lastOf here = none) (inside : dest ∈ s.module.graph.layout site.func) :
    Ends (jumpUnlessTerminated dest) s broken fun _ t =>
      (site.Reached scopes st s here t here [] ∧ ∃ i, t.module.graph.lastOf here = some i) ∧
        ∀ c : Plan, c.Includes site t.module.graph → c.Jumps (s.module.spot here) dest := by
  obtain ⟨d, isBlock⟩ := inner.skeleton.block_of_mem inner.member
  have asked : Ends (build (do StateT.lift (← get).isTerminated)) s broken fun terminated t =>
      terminated = false ∧ t = s := by
    refine .build fun terminated module done => ?_
    obtain ⟨read, rfl⟩ := lift_ok.1 (get_bind_ok.1 done)
    rw [Module.isTerminated, inner.point] at read
    dsimp only at read
    rw [Graph.Consistent.terminator? isBlock, opened] at read
    cases read
    exact ⟨rfl, rfl⟩
  refine asked.bind ?_
  rintro _ _ ⟨eq, same'⟩
  subst eq same'
  refine (jump_follows inner inside).bind ?_
  intro _ t jumped
  exact .pure jumped

theorem leave_carries (writing : site.Writing st ls sc s here)
    (inside : dest ∈ s.module.graph.layout site.func) :
    Carries site st ls sc s here (do
      let _ ← build (Builder.jump dest)
      continueUnreachable) fun c p _ => c.Jumps p dest := by
  refine (jump_follows writing.inner inside).bind ?_
  intro _ s1 ⟨⟨reached1, last1⟩, jumps⟩
  refine (continueUnreachable_ends reached1.building last1).mono (fun _ bad => bad) ?_
  intro _ t ⟨there, reached2, blank⟩
  have path := reached1.trans reached2
  have opened : t.module.graph.lastOf there = none := by
    rw [Graph.lastOf, blank]
    rfl
  refine ⟨ls, there, prefix_rfl, ⟨?_, fun _ => opened⟩, (writing.advanced path opened).seated, ?_⟩
  · rw [path.building.names]
    exact path
  · intro c hosts
    exact jumps c (hosts.toIncludes.before reached2.advances.grows)

theorem join_carries (path : site.Reached s.module.symbols st start origin s here [dest])
    (last : ∃ i, s.module.graph.lastOf here = some i) (seated : site.Seated st ls sc s.module) :
    Ends (build (Builder.setInsertPoint dest)) s broken fun _ t =>
      site.Passed t.module.symbols st start origin t dest ∧
        site.Seated st ls sc t.module ∧ t.module.graph = s.module.graph ∧
        t.module.spot dest = ⟨dest, 0, t.module.graph.values.size⟩ := by
  refine (setInsertPoint_ends path last).mono (fun _ bad => bad) ?_
  intro _ t ⟨entered, blank, eq⟩
  have names := entered.building.names
  refine ⟨⟨?_, fun _ => ?_⟩, seated.grown ?_ names, eq, spot_of_blank blank⟩
  · rw [names]
    exact entered
  · rw [Graph.lastOf, blank]
    rfl
  · rw [eq]
    exact .refl _ _

private theorem enter_writing (writing : site.Writing st ls sc start origin)
    (path : site.Reached scopes st start origin s here (dest :: later))
    (last : ∃ i, s.module.graph.lastOf here = some i) (seated : site.Seated st slots' scope' s.module)
    (within : sc.Within scope') : Ends (build (Builder.setInsertPoint dest)) s broken fun _ t =>
      site.Writing st slots' scope' t dest ∧
        site.Reached t.module.symbols st start origin t dest later ∧ t.module.graph = s.module.graph ∧
        t.module.spot dest = ⟨dest, 0, t.module.graph.values.size⟩ := by
  have names := path.building.names
  refine (setInsertPoint_ends path last).mono (fun _ bad => bad) ?_
  intro _ t ⟨entered, blank, eq⟩
  have now := entered.building.names
  have way : site.Reached t.module.symbols st start origin t dest later := now ▸ entered
  have seats : site.Seated st slots' scope' t.module :=
    seated.grown (by rw [eq]; exact .refl _ _) (now.trans names.symm)
  have opened : t.module.graph.lastOf dest = none := by
    rw [Graph.lastOf, blank]
    rfl
  exact ⟨writing.reached way opened seats within, way, eq, spot_of_blank blank⟩

theorem enter_carries (writing : site.Writing st ls sc start origin)
    (path : site.Reached scopes st start origin s here (dest :: later))
    (last : ∃ i, s.module.graph.lastOf here = some i) (seated : site.Seated st slots' scope' s.module)
    (within : sc.Within scope') (rest : ∀ t, site.Writing st slots' scope' t dest →
      site.Reached t.module.symbols st start origin t dest later →
      t.module.graph = s.module.graph → t.module.spot dest = ⟨dest, 0, t.module.graph.values.size⟩ →
      Ends next t broken final) :
    Ends (do build (Builder.setInsertPoint dest); next) s broken final := by
  refine (enter_writing writing path last seated within).bind ?_
  intro _ t ⟨inside, way, eq, spot⟩
  exact rest t inside way eq spot

theorem part_carries (carries : Carries site st ls scope' s here x code)
    (writing : site.Writing st ls sc s here) (within : sc.Within scope')
    (path : site.Reached s.module.symbols st start origin s here later)
    (inside : dest ∈ s.module.graph.layout site.func)
    (rest : ∀ slots' t there, ls <+: slots' → s.module.graph.Grows site.entry t.module.graph →
      site.Reached t.module.symbols st start origin t there later →
      (∃ i, t.module.graph.lastOf there = some i) → site.Seated st slots' scope' t.module →
      (∀ c : Plan, c.Hosts site st slots' t.module.graph →
        ∃ q, code c (s.module.spot here) q ∧ c.Jumps q dest) → Ends next t (fun _ => True) final) :
    Ends (do x; jumpUnlessTerminated dest; next) s (fun _ => True) final := by
  refine Ends.bind carries ?_
  intro _ s1 ⟨slots', here1, longer, passed, seated, codes⟩
  have writing1 := writing.reached passed.toReached (passed.opened writing.opened) seated within
  refine (jumpUnlessTerminated_follows writing1.inner writing1.opened (passed.advances.layout.subset inside)).bind ?_
  intro _ t ⟨⟨ended, last⟩, jumps⟩
  have names := ended.building.names
  have way := (path.trans passed.toReached).trans ended
  rw [append_nil, append_nil, ← names] at way
  refine rest slots' t here1 longer (passed.advances.grows.trans ended.advances.grows) way last
    (seated.grown ended.advances.grows names) fun c hosts => ⟨_, ?_, jumps c hosts.toIncludes⟩
  exact codes c (hosts.before prefix_rfl ended.advances.grows)

theorem condition_carries {cond : Expr} {location : Location} {next : ValueId → Lower Unit}
    (writing : site.Writing st ls sc s here)
    (rest : ∀ v t there, site.Passed s.module.symbols st s here t there → t.module.graph.Plain v →
      site.Writing st ls sc t there → (∀ c : Plan, c.Hosts site st ls t.module.graph →
        c.Condition (c.Computes sc cond) (s.module.spot here) v (t.module.spot there)) →
      Ends (next v) t (fun _ => True) final) :
    Ends (expr cond >>= fun u => conditionOf location u >>= next) s (fun _ => True) final := by
  refine Ends.bind (expr_follows sc cond writing.inner) ?_
  intro u s1 ⟨here1, passed1, plainU, gives1⟩
  have writing1 := writing.passed passed1
  refine Ends.bind (conditionOf_follows (fun _ => True) (writing.inner.passed passed1) plainU) ?_
  intro v t ⟨there, passed2, plain, gives2⟩
  have passed := passed1.trans passed2
  refine rest v t there passed plain (writing.passed passed) fun c hosts => ?_
  have hosts1 := hosts.before prefix_rfl passed2.advances.grows
  obtain ⟨loaded, p1, loads, tests⟩ := gives2 c hosts.toIncludes trivial
  have seats := writing.seats (hosts1.before prefix_rfl passed1.advances.grows)
  exact ⟨loaded, p1, ⟨u, _, gives1 c hosts1.toIncludes seats, loads⟩, tests⟩

end Control

end Lower
end Midend
