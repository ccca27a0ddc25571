import Mathlib.Data.List.Induction
import Mathlib.Data.List.Nodup
import Mathlib.Data.List.Perm.Subperm
import Mathlib.Logic.Relation
import Midend.Pass.Schedule
import Midend.Proofs.Graph.Access

/-! The order that a walk through the requirements leaves behind: passes of the registry, each
once and after all that it requires. -/
namespace Midend.Registry
open List
variable {σ : Type} {r : Registry σ} {order : List Nat}

def Requires (r : Registry σ) (index required : Nat) : Prop :=
  ∃ pass, r.passes[index]? = some pass ∧ ∃ name ∈ pass.requires, r.indexOf? name = some required

/-- What a pass needs: itself, what it requires, what that requires, and so on. -/
def Needs (r : Registry σ) : Nat → Nat → Prop := Relation.ReflTransGen r.Requires

inductive Sorted (r : Registry σ) : List Nat → Prop
  | nil : Sorted r []
  | snoc {order : List Nat} {index : Nat} {pass : Pass σ} (sorted : Sorted r order)
      (registered : r.passes[index]? = some pass) (new : index ∉ order)
      (after : ∀ name ∈ pass.requires, ∃ required ∈ order, r.indexOf? name = some required) :
      Sorted r (order ++ [index])

namespace Sorted

theorem nodup (sorted : r.Sorted order) : order.Nodup := by
  induction sorted with
  | nil => exact nodup_nil
  | snoc _ _ new _ ih =>
    rw [nodup_append]
    refine ⟨ih, nodup_singleton _, ?_⟩
    intro i left j right equal
    rw [mem_singleton] at right
    exact new (right ▸ equal ▸ left)

theorem lt_length (sorted : r.Sorted order) : ∀ index ∈ order, index < r.passes.length := by
  induction sorted with
  | nil => simp
  | snoc _ reg _ _ ih =>
    intro i mem
    rcases mem_append.1 mem with pre | last
    · exact ih i pre
    · rw [mem_singleton.1 last]
      exact (List.getElem?_eq_some_iff.1 reg).1

theorem length_le (sorted : r.Sorted order) : order.length ≤ r.passes.length := by
  have into : order ⊆ List.range r.passes.length := by
    intro i mem
    exact mem_range.2 (sorted.lt_length i mem)
  simpa using (sorted.nodup.subperm into).length_le

theorem split {pre later : List Nat} {i : Nat} (sorted : r.Sorted (pre ++ i :: later)) :
    r.Sorted pre ∧ ∃ pass, r.passes[i]? = some pass ∧
      ∀ n ∈ pass.requires, ∃ req ∈ pre, r.indexOf? n = some req := by
  induction later using List.reverseRecOn with
  | nil =>
    generalize whole : pre ++ [i] = order at sorted
    cases sorted with
    | nil => simp at whole
    | snoc sorted reg _ t =>
      obtain ⟨rfl, eq⟩ := append_inj' whole rfl
      obtain rfl : i = _ := by simpa using eq
      exact ⟨sorted, _, reg, t⟩
  | append_singleton later last ih =>
    generalize whole : pre ++ i :: (later ++ [last]) = order at sorted
    cases sorted with
    | nil => simp at whole
    | snoc sorted _ _ _ =>
      rw [← cons_append, ← append_assoc] at whole
      obtain ⟨rfl, _⟩ := append_inj' whole rfl
      exact ih sorted

end Sorted

structure Walked (r : Registry σ) (walk after : Walk) : Prop where
  sorted : r.Sorted walk.order → r.Sorted after.order
  entered : after.entered = walk.entered
  order : ∃ added, after.order = walk.order ++ added ∧ ∀ index ∈ added, index ∉ walk.entered

namespace Walked
variable {walk next t : Walk}

theorem refl : r.Walked walk walk := ⟨id, rfl, [], by simp, by simp⟩

theorem trans (first : r.Walked walk next) (second : r.Walked next t) : r.Walked walk t := by
  obtain ⟨former, formerOrder, formerNew⟩ := first.order
  obtain ⟨latter, latterOrder, latterNew⟩ := second.order
  refine ⟨second.sorted ∘ first.sorted, second.entered.trans first.entered, former ++ latter, ?_, ?_⟩
  · rw [latterOrder, formerOrder, append_assoc]
  · intro i mem
    rcases mem_append.1 mem with left | right
    · exact formerNew i left
    · exact first.entered ▸ latterNew i right

private theorem mem_order (walked : r.Walked walk t) {i : Nat} (mem : i ∈ walk.order) : i ∈ t.order := by
  obtain ⟨add, order, _⟩ := walked.order
  rw [order]
  exact mem_append_left add mem

end Walked

variable {walk t : Walk}

private theorem requirements_walked {visit : Nat → Walk → Except PassError Walk} {pass : String}
    (each : ∀ i walk t, visit i walk = .ok t →
      r.Walked walk t ∧ (i < r.passes.length → i ∈ t.order))
    {ns : List String}
    (done : ns.foldlM (fun walk n =>
      match r.indexOf? n with
      | none => Except.error (PassError.missingPrerequisite pass n)
      | some req => visit req walk) walk = .ok t) :
    r.Walked walk t ∧ ∀ n ∈ ns, ∃ req ∈ t.order, r.indexOf? n = some req := by
  induction ns generalizing walk with
  | nil =>
    rw [foldlM_nil, pure_eq_ok] at done
    subst done
    exact ⟨.refl, by simp⟩
  | cons n ns ih =>
    rw [foldlM_cons, bind_eq_ok] at done
    obtain ⟨next, first, tl⟩ := done
    obtain ⟨walked, hit⟩ := ih tl
    cases old : r.indexOf? n with
    | none => simp [old] at first
    | some req =>
      simp only [old] at first
      obtain ⟨visited, path⟩ := each req walk next first
      refine ⟨visited.trans walked, ?_⟩
      intro other member
      rcases mem_cons.1 member with rfl | member
      · have reg : req < r.passes.length := by
          obtain ⟨lt, _⟩ := findIdx?_eq_some_iff_getElem.1 old
          exact lt
        exact ⟨req, walked.mem_order (path reg), old⟩
      · exact hit other member

/-- A visit orders a pass after all that it requires. -/
theorem visit_walked {fuel i : Nat} (done : r.visit fuel i walk = .ok t) :
    r.Walked walk t ∧ (i < r.passes.length → i ∈ t.order) := by
  induction fuel generalizing i walk t with
  | zero =>
    unfold visit at done
    split at done
    · rename_i unregistered
      cases done
      exact ⟨.refl, fun lt => absurd (getElem?_eq_none_iff.1 unregistered) (by omega)⟩
    · split at done
      · rename_i member
        cases done
        exact ⟨.refl, fun _ => member⟩
      · split at done <;> cases done
  | succ fuel ih =>
    unfold visit at done
    split at done
    · rename_i unregistered
      cases done
      exact ⟨.refl, fun lt => absurd (getElem?_eq_none_iff.1 unregistered) (by omega)⟩
    · rename_i pass reg
      split at done
      · rename_i member
        cases done
        exact ⟨.refl, fun _ => member⟩
      · rename_i new
        split at done
        · cases done
        · rw [bind_eq_ok] at done
          obtain ⟨last, through, left⟩ := done
          cases left
          obtain ⟨walked, hit⟩ := requirements_walked (fun _ _ _ => ih) through
          obtain ⟨add, order, outside⟩ := walked.order
          -- The pass was entered before its requirements, so none of them put it in the order.
          have absent : i ∉ last.order := by
            rw [order, mem_append]
            rintro (member | member)
            · exact new member
            · exact outside i member mem_cons_self
          refine ⟨⟨fun sorted => (walked.sorted sorted).snoc reg absent hit, ?_,
            add ++ [i], ?_, ?_⟩, fun _ => by simp⟩
          · simp [walked.entered]
          · rw [order, append_assoc]
          · rename_i fresh
            intro other member
            rcases mem_append.1 member with member | member
            · exact fun ent => outside other member (mem_cons_of_mem _ ent)
            · rw [mem_singleton.1 member]
              exact fresh

theorem schedule_sorted {roots : List Nat} (done : r.schedule roots = .ok order) :
    r.Sorted order ∧ ∀ root ∈ roots, root < r.passes.length → root ∈ order := by
  obtain ⟨last, through, left⟩ := bind_eq_ok.1 done
  cases left
  have walked : r.Walked {} last ∧ ∀ root ∈ roots, root < r.passes.length → root ∈ last.order := by
    generalize ({} : Walk) = s0 at through
    clear done
    induction roots generalizing s0 with
    | nil =>
      rw [foldlM_nil, pure_eq_ok] at through
      exact ⟨through ▸ .refl, by simp⟩
    | cons root roots ih =>
      rw [foldlM_cons, bind_eq_ok] at through
      obtain ⟨next, first, tl⟩ := through
      obtain ⟨visited, path⟩ := visit_walked first
      obtain ⟨walked, hit⟩ := ih next tl
      refine ⟨visited.trans walked, ?_⟩
      intro other member lt
      rcases mem_cons.1 member with rfl | member
      · exact walked.mem_order (path lt)
      · exact hit other member lt
  exact ⟨walked.1.sorted .nil, walked.2⟩

end Midend.Registry
