import Midend.Pass.Pipeline
import Midend.Pass.Scripted
import Midend.Proofs.Pass.Schedule

/-! Scheduling is a topological sort of what is needed. It fails only where a requirement is not
registered or requirements run in a circle, and then it names a pass to blame. The passes that
were entered and not left form a path to the pass that is visited, from which both follow. -/
namespace Midend
open List
namespace Registry
variable {σ : Type} {r : Registry σ} {roots order : List Nat}

def Reached (r : Registry σ) (roots : List Nat) (index : Nat) : Prop := ∃ root ∈ roots, r.Needs root index

def Lacks (r : Registry σ) (index : Nat) (name : String) : Prop :=
  ∃ pass, r.passes[index]? = some pass ∧ name ∈ pass.requires ∧ name ∉ r.names

def Cyclic (r : Registry σ) (index : Nat) : Prop := Relation.TransGen r.Requires index index

def Blames (r : Registry σ) (roots : List Nat) (e : PassError) : Prop :=
  ∃ index pass, r.Reached roots index ∧ r.passes[index]? = some pass ∧
    (e = .dependencyCycle pass.name ∧ r.Cyclic index ∨
      ∃ name, e = .missingPrerequisite pass.name name ∧ r.Lacks index name)

structure Sorts (r : Registry σ) (roots : List Nat) : Prop where
  succeeds : (∃ order, r.schedule roots = .ok order) ↔
    ∀ index, r.Reached roots index → (∀ name, ¬ r.Lacks index name) ∧ ¬ r.Cyclic index
  nodup : ∀ order, r.schedule roots = .ok order → order.Nodup
  mem_iff : ∀ order, r.schedule roots = .ok order → ∀ index, index ∈ order ↔ r.Reached roots index
  after : ∀ order, r.schedule roots = .ok order → ∀ earlier index later, order = earlier ++ index :: later →
    ∀ required, r.Requires index required → required ∈ earlier
  blames : ∀ e, r.schedule roots = .error e → r.Blames roots e
  ends : ∀ fuel, r.passes.length ≤ fuel →
    roots.foldlM (fun walk root => r.visit fuel root walk) {} =
      roots.foldlM (fun walk root => r.visit r.passes.length root walk) {}

theorem indexOf?_eq_none {n : String} : r.indexOf? n = none ↔ n ∉ r.names := by
  simp [indexOf?, names, findIdx?_eq_none_iff]

theorem Requires.registered {i req : Nat} (requires : r.Requires i req) :
    i < r.passes.length := by
  obtain ⟨pass, hit, _⟩ := requires
  exact (List.getElem?_eq_some_iff.1 hit).1

def Path (r : Registry σ) (roots : List Nat) : List Nat → Nat → Prop
  | [], index => index ∈ roots
  | last :: earlier, index => r.Requires last index ∧ r.Path roots earlier last

namespace Path
variable {ent : List Nat} {i : Nat}

theorem reached (path : r.Path roots ent i) : r.Reached roots i := by
  induction ent generalizing i with
  | nil => exact ⟨i, path, .refl⟩
  | cons last pre ih =>
    obtain ⟨root, isRoot, needs⟩ := ih path.2
    exact ⟨root, isRoot, needs.tail path.1⟩

theorem needs (path : r.Path roots ent i) {other : Nat} (member : other ∈ ent) :
    Relation.TransGen r.Requires other i := by
  induction ent generalizing i with
  | nil => cases member
  | cons last pre ih =>
    rcases mem_cons.1 member with rfl | member
    · exact .single path.1
    · exact (ih path.2 member).tail path.1

theorem lt_length (path : r.Path roots ent i) : ∀ other ∈ ent, other < r.passes.length := by
  induction ent generalizing i with
  | nil => simp
  | cons last pre ih =>
    intro other member
    rcases mem_cons.1 member with rfl | member
    · exact path.1.registered
    · exact ih path.2 other member

end Path

structure Heading (r : Registry σ) (roots entered : List Nat) (index : Nat) : Prop where
  path : r.Path roots entered index
  nodup : entered.Nodup

namespace Heading
variable {ent : List Nat} {i : Nat} {pass : Pass σ}

private theorem length_lt (heading : r.Heading roots ent i) (reg : r.passes[i]? = some pass)
    (new : i ∉ ent) : ent.length < r.passes.length := by
  have into : i :: ent ⊆ List.range r.passes.length := by
    intro other member
    rw [mem_range]
    rcases mem_cons.1 member with rfl | member
    · exact (List.getElem?_eq_some_iff.1 reg).1
    · exact heading.path.lt_length other member
  have short := ((nodup_cons.2 ⟨new, heading.nodup⟩).subperm into).length_le
  rwa [length_range] at short

theorem step (heading : r.Heading roots ent i) (new : i ∉ ent) {req : Nat}
    (requires : r.Requires i req) {further : List Nat} (eq : further = i :: ent) :
    r.Heading roots further req := by
  subst eq
  exact ⟨⟨requires, heading.path⟩, nodup_cons.2 ⟨new, heading.nodup⟩⟩

end Heading

section Visit
variable {walk t : Walk} {i fuel fuel' : Nat} {pass : Pass σ} {e : PassError}
variable {n : String} {ns : List String}

def visitAll (r : Registry σ) (fuel : Nat) (pass : String) (names : List String) (walk : Walk) :
    Except PassError Walk :=
  names.foldlM
    (fun walk name =>
      match r.indexOf? name with
      | none => .error (.missingPrerequisite pass name)
      | some required => r.visit fuel required walk) walk

private theorem settled_or_unordered (r : Registry σ) (i : Nat) (walk : Walk) :
    (r.passes[i]? = none ∨ i ∈ walk.order) ∨ ∃ pass, r.passes[i]? = some pass ∧ i ∉ walk.order := by
  cases reg : r.passes[i]? with
  | none => exact .inl (.inl rfl)
  | some pass =>
    by_cases ord : i ∈ walk.order
    · exact .inl (.inr ord)
    · exact .inr ⟨pass, rfl, ord⟩

private theorem visit_settled (settled : r.passes[i]? = none ∨ i ∈ walk.order) (fuel : Nat) :
    r.visit fuel i walk = .ok walk := by
  unfold visit
  split
  · rfl
  next pass registered =>
    rcases settled with unregistered | ordered
    · cases registered.symm.trans unregistered
    · exact if_pos ordered

private theorem visit_entered (reg : r.passes[i]? = some pass) (unordered : i ∉ walk.order)
    (circle : i ∈ walk.entered) (fuel : Nat) : r.visit fuel i walk = .error (.dependencyCycle pass.name) := by
  unfold visit
  rw [reg]
  dsimp only
  rw [if_neg unordered, if_pos circle]

private theorem visit_new (registered : r.passes[i]? = some pass) (unordered : i ∉ walk.order)
    (new : i ∉ walk.entered) (fuel : Nat) :
    r.visit (fuel + 1) i walk = do
      let walk ← r.visitAll fuel pass.name pass.requires { walk with entered := i :: walk.entered }
      return { entered := walk.entered.erase i, order := walk.order ++ [i] } := by
  unfold visit
  rw [registered]
  dsimp only
  rw [if_neg unordered, if_neg new]
  rfl

private theorem visitAll_error (failed : r.visitAll fuel n ns walk = .error e) :
    ∃ req ∈ ns, r.indexOf? req = none ∧ e = .missingPrerequisite n req ∨
      ∃ i next, r.indexOf? req = some i ∧ next.entered = walk.entered ∧
        r.visit fuel i next = .error e := by
  induction ns generalizing walk with
  | nil => cases failed
  | cons req ns ih =>
    unfold visitAll at failed
    rw [foldlM_cons] at failed
    cases old : r.indexOf? req with
    | none =>
      simp only [old] at failed
      cases failed
      exact ⟨req, mem_cons_self, .inl ⟨old, rfl⟩⟩
    | some i =>
      simp only [old] at failed
      cases visited : r.visit fuel i walk with
      | error e' =>
        rw [visited] at failed
        cases failed
        exact ⟨req, mem_cons_self, .inr ⟨i, walk, old, rfl, visited⟩⟩
      | ok next =>
        rw [visited] at failed
        obtain ⟨other, mem, hit⟩ := ih failed
        rw [(visit_walked visited).1.entered] at hit
        exact ⟨other, mem_cons_of_mem req mem, hit⟩

/-- An error of a visit blames a pass that is needed, if there is fuel for every pass that is not
on the path. -/
private theorem visit_error (heading : r.Heading roots walk.entered i)
    (enough : r.passes.length ≤ fuel + walk.entered.length) (failed : r.visit fuel i walk = .error e) :
    r.Blames roots e := by
  induction fuel using Nat.strongRecOn generalizing i walk with
  | ind fuel ih =>
    rcases r.settled_or_unordered i walk with settled | ⟨pass, registered, unordered⟩
    · rw [visit_settled settled] at failed
      cases failed
    by_cases circle : i ∈ walk.entered
    · rw [visit_entered registered unordered circle] at failed
      cases failed
      exact ⟨i, pass, heading.path.reached, registered, .inl ⟨rfl, heading.path.needs circle⟩⟩
    have room := heading.length_lt registered circle
    obtain ⟨less, rfl⟩ := Nat.exists_eq_succ_of_ne_zero (by omega : fuel ≠ 0)
    rw [Nat.succ_eq_add_one, visit_new registered unordered circle] at failed
    have through : r.visitAll less pass.name pass.requires { walk with entered := i :: walk.entered } = .error e := by
      cases res : r.visitAll less pass.name pass.requires { walk with entered := i :: walk.entered } with
      | error e' => rwa [res] at failed
      | ok last =>
        rw [res] at failed
        cases failed
    obtain ⟨n, mem, ⟨missing, rfl⟩ | ⟨required, next, known, eq, visited⟩⟩ := visitAll_error through
    · exact ⟨i, pass, heading.path.reached, registered,
        .inr ⟨n, rfl, pass, registered, mem, indexOf?_eq_none.1 missing⟩⟩
    · have further := heading.step circle ⟨pass, registered, n, mem, known⟩ eq
      refine ih less (Nat.lt_succ_self less) further ?_ visited
      rw [eq, length_cons]
      omega

private theorem visitAll_congr (fuel' : Nat)
    (each : ∀ req ∈ ns, ∀ i next, r.indexOf? req = some i → next.entered = walk.entered →
      r.visit fuel i next = r.visit fuel' i next) :
    r.visitAll fuel n ns walk = r.visitAll fuel' n ns walk := by
  induction ns generalizing walk with
  | nil => rfl
  | cons req ns ih =>
    unfold visitAll
    rw [foldlM_cons, foldlM_cons]
    cases old : r.indexOf? req with
    | none => rfl
    | some i =>
      dsimp only
      rw [each req mem_cons_self i walk old rfl]
      cases visited : r.visit fuel' i walk with
      | error e => rfl
      | ok next =>
        apply ih
        intro other mem index' next' known' eq
        rw [(visit_walked visited).1.entered] at eq
        exact each other (mem_cons_of_mem req mem) index' next' known' eq

private theorem visit_congr (heading : r.Heading roots walk.entered i)
    (enough : r.passes.length ≤ fuel + walk.entered.length) (enough' : r.passes.length ≤ fuel' + walk.entered.length) :
    r.visit fuel i walk = r.visit fuel' i walk := by
  induction fuel using Nat.strongRecOn generalizing i walk fuel' with
  | ind fuel ih =>
    rcases r.settled_or_unordered i walk with settled | ⟨pass, registered, unordered⟩
    · rw [visit_settled settled, visit_settled settled]
    by_cases circle : i ∈ walk.entered
    · rw [visit_entered registered unordered circle, visit_entered registered unordered circle]
    have room := heading.length_lt registered circle
    obtain ⟨less, rfl⟩ := Nat.exists_eq_succ_of_ne_zero (by omega : fuel ≠ 0)
    obtain ⟨less', rfl⟩ := Nat.exists_eq_succ_of_ne_zero (by omega : fuel' ≠ 0)
    rw [Nat.succ_eq_add_one, Nat.succ_eq_add_one, visit_new registered unordered circle,
      visit_new registered unordered circle, visitAll_congr less']
    intro n mem required next known eq
    have further := heading.step circle ⟨pass, registered, n, mem, known⟩ eq
    apply ih less (Nat.lt_succ_self less) further <;> rw [eq, length_cons] <;> omega

private theorem visitAll_needs (done : r.visitAll fuel n ns walk = .ok t)
    (each : ∀ i walk t, r.visit fuel i walk = .ok t →
      ∀ other ∈ t.order, other ∈ walk.order ∨ r.Needs i other) : ∀ other ∈ t.order, other ∈ walk.order ∨
      ∃ req ∈ ns, ∃ i, r.indexOf? req = some i ∧ r.Needs i other := by
  induction ns generalizing walk with
  | nil =>
    cases done
    intro other mem
    exact .inl mem
  | cons req ns ih =>
    unfold visitAll at done
    rw [foldlM_cons] at done
    obtain ⟨next, first, tl⟩ := bind_eq_ok.1 done
    cases old : r.indexOf? req with
    | none => simp [old] at first
    | some i =>
      simp only [old] at first
      intro other mem
      rcases ih tl other mem with pre | ⟨later, isLater, hit⟩
      · rcases each i walk next first other pre with pre | needs
        · exact .inl pre
        · exact .inr ⟨req, mem_cons_self, i, old, needs⟩
      · exact .inr ⟨later, mem_cons_of_mem req isLater, hit⟩

private theorem visit_needs (done : r.visit fuel i walk = .ok t) :
    ∀ other ∈ t.order, other ∈ walk.order ∨ r.Needs i other := by
  induction fuel generalizing i walk t with
  | zero =>
    rcases r.settled_or_unordered i walk with settled | ⟨pass, reg, unordered⟩
    · rw [visit_settled settled] at done
      cases done
      intro other member
      exact .inl member
    · unfold visit at done
      rw [reg] at done
      dsimp only at done
      rw [if_neg unordered] at done
      split at done <;> cases done
  | succ fuel ih =>
    rcases r.settled_or_unordered i walk with settled | ⟨pass, reg, unordered⟩
    · rw [visit_settled settled] at done
      cases done
      intro other member
      exact .inl member
    by_cases circle : i ∈ walk.entered
    · rw [visit_entered reg unordered circle] at done
      cases done
    rw [visit_new reg unordered circle] at done
    obtain ⟨last, through, left⟩ := bind_eq_ok.1 done
    cases left
    intro other member
    rcases mem_append.1 member with member | member
    · rcases visitAll_needs through (fun _ _ _ => ih) other member with pre | ⟨n, isName, req, old, needs⟩
      · exact .inl pre
      · exact .inr (needs.head ⟨pass, reg, n, isName, old⟩)
    · rw [mem_singleton.1 member]
      exact .inr .refl

end Visit

namespace Sorted
variable {i req : Nat}

theorem requires (sorted : r.Sorted order) {pre later : List Nat} (split : order = pre ++ i :: later)
    (requires : r.Requires i req) : req ∈ pre := by
  subst split
  obtain ⟨_, pass, reg, t⟩ := sorted.split
  obtain ⟨pass', registered', n, mem, old⟩ := requires
  cases reg.symm.trans registered'
  obtain ⟨other, isEarlier, known'⟩ := t n mem
  cases old.symm.trans known'
  exact isEarlier

private theorem idxOf_lt (sorted : r.Sorted order) (mem : i ∈ order) (requires : r.Requires i req) :
    req ∈ order ∧ order.idxOf req < order.idxOf i := by
  obtain ⟨pre, later, rfl⟩ := append_of_mem mem
  have isEarlier := sorted.requires rfl requires
  have new : i ∉ pre := fun twice =>
    (nodup_append.1 sorted.nodup).2.2 i twice i mem_cons_self rfl
  refine ⟨mem_append_left _ isEarlier, ?_⟩
  rw [idxOf_append_of_mem isEarlier, idxOf_append_of_notMem new, idxOf_cons_self]
  exact Nat.lt_of_lt_of_le (idxOf_lt_length_of_mem isEarlier) (Nat.le_add_right _ _)

theorem needs (sorted : r.Sorted order) (member : i ∈ order) (needs : r.Needs i req) :
    req ∈ order := by
  induction needs with
  | refl => exact member
  | tail _ requires ih => exact (sorted.idxOf_lt ih requires).1

private theorem not_cyclic (sorted : r.Sorted order) (mem : i ∈ order) : ¬ r.Cyclic i := by
  intro cyclic
  have pre : ∀ other, Relation.TransGen r.Requires i other →
      other ∈ order ∧ order.idxOf other < order.idxOf i := by
    intro other path
    induction path with
    | single requires => exact sorted.idxOf_lt mem requires
    | tail _ requires ih =>
      obtain ⟨isMember, less⟩ := sorted.idxOf_lt ih.1 requires
      exact ⟨isMember, Nat.lt_trans less ih.2⟩
  exact Nat.lt_irrefl _ (pre i cyclic).2

private theorem not_lacks (sorted : r.Sorted order) (mem : i ∈ order) (n : String) : ¬ r.Lacks i n := by
  rintro ⟨pass, reg, isRequired, unknown⟩
  obtain ⟨pre, later, rfl⟩ := append_of_mem mem
  obtain ⟨_, pass', registered', t⟩ := sorted.split
  cases reg.symm.trans registered'
  obtain ⟨req, _, old⟩ := t n isRequired
  rw [indexOf?_eq_none.2 unknown] at old
  cases old

end Sorted

section Schedule
variable {walk last : Walk} {e : PassError}
variable {fuel : Nat}

private theorem visitRoots_error (enough : r.passes.length ≤ fuel) {some : List Nat} (into : some ⊆ roots)
    (outside : walk.entered = []) (failed : some.foldlM (fun walk root => r.visit fuel root walk) walk = .error e) :
    r.Blames roots e := by
  induction some generalizing walk with
  | nil => cases failed
  | cons root tl ih =>
    rw [foldlM_cons] at failed
    have isRoot := into mem_cons_self
    cases visited : r.visit fuel root walk with
    | error e' =>
      rw [visited] at failed
      cases failed
      have heading : r.Heading roots walk.entered root := by
        rw [outside]
        exact ⟨isRoot, nodup_nil⟩
      exact visit_error heading (Nat.le_add_right_of_le enough) visited
    | ok next =>
      rw [visited] at failed
      exact ih (subset_of_cons_subset into) ((visit_walked visited).1.entered.trans outside) failed

private theorem visitRoots_congr {fuel' : Nat} (enough : r.passes.length ≤ fuel) (enough' : r.passes.length ≤ fuel')
    (outside : walk.entered = []) : roots.foldlM (fun walk root => r.visit fuel root walk) walk =
      roots.foldlM (fun walk root => r.visit fuel' root walk) walk := by
  induction roots generalizing walk with
  | nil => rfl
  | cons root tl ih =>
    have heading : r.Heading [root] walk.entered root := by
      rw [outside]
      exact ⟨mem_cons_self, nodup_nil⟩
    have eq := visit_congr heading (Nat.le_add_right_of_le enough) (Nat.le_add_right_of_le enough')
    rw [foldlM_cons, foldlM_cons, eq]
    cases visited : r.visit fuel' root walk with
    | error e => rfl
    | ok next => exact ih ((visit_walked visited).1.entered.trans outside)

private theorem visitRoots_needs (done : roots.foldlM (fun walk root => r.visit fuel root walk) walk = .ok last) :
    ∀ i ∈ last.order, i ∈ walk.order ∨ r.Reached roots i := by
  induction roots generalizing walk with
  | nil =>
    cases done
    intro i mem
    exact .inl mem
  | cons root tl ih =>
    rw [foldlM_cons] at done
    obtain ⟨next, first, others⟩ := bind_eq_ok.1 done
    intro i mem
    rcases ih others i mem with pre | ⟨other, isRoot, needs⟩
    · rcases visit_needs first i pre with pre | needs
      · exact .inl pre
      · exact .inr ⟨root, mem_cons_self, needs⟩
    · exact .inr ⟨other, mem_cons_of_mem root isRoot, needs⟩

private theorem Blames.not_fit (blames : r.Blames roots e) :
    ¬ ∀ i, r.Reached roots i → (∀ n, ¬ r.Lacks i n) ∧ ¬ r.Cyclic i := by
  intro fit
  obtain ⟨i, pass, path, _, ⟨_, cyclic⟩ | ⟨n, _, lacks⟩⟩ := blames
  · exact (fit i path).2 cyclic
  · exact (fit i path).1 n lacks

/-- Roots that are registered can be scheduled. -/
theorem sorts_of_registered (reg : ∀ root ∈ roots, root < r.passes.length) : r.Sorts roots := by
  have blames : ∀ e, r.schedule roots = .error e → r.Blames roots e := by
    intro e failed
    unfold schedule at failed
    cases res : roots.foldlM (fun walk root => r.visit r.passes.length root walk) {} with
    | error e' =>
      rw [res] at failed
      cases failed
      exact visitRoots_error (Nat.le_refl _) (List.Subset.refl roots) rfl res
    | ok last =>
      rw [res] at failed
      cases failed
  have members : ∀ order, r.schedule roots = .ok order → ∀ i, i ∈ order ↔ r.Reached roots i := by
    intro order done i
    obtain ⟨sorted, asked⟩ := schedule_sorted done
    constructor
    · intro mem
      obtain ⟨last, through, left⟩ := bind_eq_ok.1 done
      cases left
      rcases visitRoots_needs through i mem with earlier | reached
      · cases earlier
      · exact reached
    · rintro ⟨root, isRoot, needs⟩
      exact sorted.needs (asked root isRoot (reg root isRoot)) needs
  refine ⟨⟨?_, ?_⟩, ?_, members, ?_, blames, ?_⟩
  · rintro ⟨order, done⟩ i reached
    have mem := (members order done i).2 reached
    have sorted := (schedule_sorted done).1
    exact ⟨sorted.not_lacks mem, sorted.not_cyclic mem⟩
  · intro fit
    cases res : r.schedule roots with
    | ok order => exact ⟨order, rfl⟩
    | error e => exact absurd fit (blames e res).not_fit
  · intro order done
    exact (schedule_sorted done).1.nodup
  · intro order done earlier i later split req requires
    exact (schedule_sorted done).1.requires split requires
  · intro fuel enough
    exact visitRoots_congr enough (Nat.le_refl _) rfl

end Schedule

section Register
variable {level : UInt8}
variable {i : Nat}

theorem lt_length_of_enabled (mem : i ∈ r.enabled level) : i < r.passes.length := by
  obtain ⟨⟨pass, other⟩, hit, rfl⟩ := mem_map.1 mem
  obtain ⟨_, lt, _⟩ := mem_zipIdx (mem_of_mem_filter hit)
  rwa [Nat.zero_add] at lt

theorem lt_length_of_indexOf? {n : String} (hit : r.indexOf? n = some i) : i < r.passes.length :=
  (findIdx?_eq_some_iff_getElem.1 hit).1

private theorem names_register (r : Registry σ) (pass : Pass σ) :
    (r.register pass).names = if pass.name ∈ r.names then r.names else r.names ++ [pass.name] := by
  unfold register
  split
  next i known =>
    obtain ⟨bound, eq, _⟩ := findIdx?_eq_some_iff_getElem.1 known
    have n : r.passes[i].name = pass.name := by simpa using eq
    have mem : pass.name ∈ r.names := mem_map.2 ⟨_, getElem_mem bound, n⟩
    rw [if_pos mem]
    unfold names
    apply ext_getElem?
    intro other
    rw [map_set, getElem?_set]
    split
    next here =>
      subst here
      rw [length_map, if_pos bound, getElem?_map, getElem?_eq_getElem bound, Option.map_some, n]
    next => rfl
  next unknown =>
    rw [if_neg (indexOf?_eq_none.1 unknown)]
    simp [names]

private theorem nodup_names_register (distinct : r.names.Nodup) (pass : Pass σ) : (r.register pass).names.Nodup := by
  rw [names_register]
  split
  · exact distinct
  next unknown => exact nodup_append.2 ⟨distinct, nodup_singleton _, by simpa [forall_mem_ne'] using unknown⟩

end Register
end Registry

namespace Pipeline
variable {σ : Type}

private theorem nodup_names_registered (reg : List (Pass σ)) {p : Pipeline σ} (distinct : p.registry.names.Nodup) :
    (reg.foldl register p).registry.names.Nodup := by
  induction reg generalizing p with
  | nil => exact distinct
  | cons pass tl ih => exact ih (Registry.nodup_names_register distinct pass)

/-- Whatever was registered, at any level: the passes have different names, and the wanted passes
as well as any single pass are scheduled by a topological sort of what they need. -/
theorem scheduling_sorts_needs (registered : List (Pass σ)) (module : Option Module) (level : UInt8) (memory : σ) :
    let p := registered.foldl register { module, level, memory }
    p.registry.names.Nodup ∧ p.registry.Sorts (p.registry.enabled p.level) ∧
      ∀ name index, p.registry.indexOf? name = some index → p.registry.Sorts [index] := by
  intro p
  refine ⟨nodup_names_registered registered nodup_nil, ?_, ?_⟩
  · exact Registry.sorts_of_registered fun root => Registry.lt_length_of_enabled
  · intro name index found
    apply Registry.sorts_of_registered
    intro root isRoot
    rw [mem_singleton.1 isRoot]
    exact Registry.lt_length_of_indexOf? found

def beside : List (Pass Transcript) :=
  let scripted name requires := { Pass.scripted 0 name true 0 [] with requires }
  [scripted "A" ["B"], scripted "B" ["A"], scripted "C" ["D", "E"], scripted "D" ["E"], scripted "E" ["A"],
    scripted "E" []]

/-- The circle is in the way of the wanted passes, but not of a pass beside it. -/
theorem scheduling_sorts_beside_circle :
    let p := beside.foldl register { memory := {} }
    p.registry.indexOf? "C" = some 2 ∧ p.registry.schedule [2] = .ok [4, 3, 2] ∧
      p.schedule = .error (.dependencyCycle "A") ∧ p.registry.Sorts [2] := by
  intro p
  have found : p.registry.indexOf? "C" = some 2 := by decide +kernel
  exact ⟨found, by decide +kernel, by decide +kernel, (scheduling_sorts_needs beside none 1 {}).2.2 "C" 2 found⟩

end Pipeline
end Midend
