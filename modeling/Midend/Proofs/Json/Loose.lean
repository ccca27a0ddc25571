import Midend.Tree.Decode
import Mathlib.Data.List.Forall2
import Mathlib.Data.List.Perm.Basic
import Mathlib.Data.List.Nodup

/-! Other ways to write a JSON value that mean the same to a reader. The fields of a record may come in any
order and among unknown ones, and those that are null may be left out. -/
namespace Midend.Json
open List
variable {elems : List Json} {R : Json → Json → Prop}

def isTag (name : String) : Bool := name.toList.head?.any Char.isUpper

inductive Kept (R : Json → Json → Prop) : List (String × Json) → List (String × Json) → Prop
  | nil : Kept R [] []
  | keep {name : String} {v other : Json} {fields kept : List (String × Json)} (same : R v other)
      (rest : Kept R fields kept) : Kept R ((name, v) :: fields) ((name, other) :: kept)
  | drop {name : String} {fields kept : List (String × Json)} (rest : Kept R fields kept) :
      Kept R ((name, .null) :: fields) kept

inductive Loosens : Json → Json → Prop
  | same (v : Json) : Loosens v v
  | list {elems others : List Json} (each : List.Forall₂ Loosens elems others) : Loosens (.arr elems) (.arr others)
  | variant {name : String} {v other : Json} (tag : isTag name) (data : Loosens v other) :
      Loosens (.variant name v) (.variant name other)
  | record {fields kept unknown written : List (String × Json)} (plain : ∀ field ∈ fields, isTag field.1 = false)
      (each : Kept Loosens fields kept) (new : ∀ field ∈ unknown, field.1 ∉ fields.map (·.1))
      (order : written.Perm (kept ++ unknown)) : Loosens (.obj fields) (.obj written)

variable {v other : Json} {fields kept written : List (String × Json)} {n : String}

theorem loosens_str {text : String} (loose : Loosens (.str text) other) : other = .str text := by
  cases loose
  rfl

theorem loosens_int {val : Int} (loose : Loosens (.int val) other) : other = .int val := by
  cases loose
  rfl

theorem loosens_null (loose : Loosens v other) : other = .null ↔ v = .null := by
  cases loose <;> simp [variant]

theorem loosens_arr (loose : Loosens (.arr elems) other) :
    ∃ others, other = .arr others ∧ List.Forall₂ Loosens elems others := by
  cases loose with
  | same => exact ⟨elems, rfl, forall₂_same.2 fun v _ => .same v⟩
  | list each => exact ⟨_, rfl, each⟩

theorem loosens_variant (tag : isTag n) (loose : Loosens (.variant n v) other) :
    ∃ data, other = .variant n data ∧ Loosens v data := by
  generalize isWhole : Json.variant n v = whole at loose
  cases loose with
  | same => exact ⟨v, isWhole.symm, .same v⟩
  | variant _ data =>
    simp only [variant, Json.obj.injEq, List.cons.injEq, Prod.mk.injEq, and_true] at isWhole
    obtain ⟨rfl, rfl⟩ := isWhole
    exact ⟨_, rfl, data⟩
  | record plain =>
    cases isWhole
    simp [tag] at plain
  | list => cases isWhole

def Holds (written : List (String × Json)) (field : String × Json) : Option Json → Prop
  | some other => (field.1, other) ∈ written ∧ Loosens field.2 other
  | none => field.2 = .null

theorem Kept.names (each : Kept R fields kept) :
    (kept.map (·.1)).Sublist (fields.map (·.1)) := by
  induction each with
  | nil => exact .refl _
  | keep _ _ ih => exact ih.cons_cons _
  | drop _ ih => exact ih.cons _

theorem Kept.mem (each : Kept R fields kept) (distinct : (fields.map (·.1)).Nodup) (member : (n, v) ∈ fields) :
    (∀ found, (n, found) ∈ kept → R v found) ∧ (v = .null ∨ ∃ found, (n, found) ∈ kept) := by
  induction each with
  | nil => cases member
  | @keep first val other fields kept eq tl ih =>
    obtain ⟨absent, distinct⟩ := nodup_cons.1 distinct
    rcases mem_cons.1 member with isFirst | later
    · obtain ⟨rfl, rfl⟩ := Prod.mk.inj isFirst
      refine ⟨fun found hit => ?_, .inr ⟨other, mem_cons_self⟩⟩
      rcases mem_cons.1 hit with isFirst | later
      · exact (Prod.mk.inj isFirst).2 ▸ eq
      · exact absurd (tl.names.subset (mem_map_of_mem later)) absent
    · have ne : n ≠ first := fun isFirst => absent (mem_map.2 ⟨_, later, isFirst⟩)
      simpa [ne] using ih distinct later
  | @drop first fields kept tl ih =>
    obtain ⟨absent, distinct⟩ := nodup_cons.1 distinct
    rcases mem_cons.1 member with isFirst | later
    · obtain ⟨rfl, rfl⟩ := Prod.mk.inj isFirst
      exact ⟨fun found hit => absurd (tl.names.subset (mem_map_of_mem hit)) absent, .inl rfl⟩
    · exact ih distinct later

/-- A record that was loosely written has each field once, under its name. -/
theorem Kept.holds {unknown : List (String × Json)} (each : Kept Loosens fields kept)
    (order : written.Perm (kept ++ unknown)) (distinct : (fields.map (·.1)).Nodup)
    (new : ∀ field ∈ unknown, field.1 ∉ fields.map (·.1)) :
    named (fields.map (·.1)) written = some ((fields.map (·.1)).map fun n => written.lookup n) ∧
      ∀ field ∈ fields, Holds written field (written.lookup field.1) := by
  have mine : ∀ field ∈ fields, ∀ found, (field.1, found) ∈ written ↔ (field.1, found) ∈ kept := fun field member found => by
    rw [order.mem_iff, mem_append]
    exact or_iff_left fun other => new _ other (mem_map.2 ⟨field, member, rfl⟩)
  constructor
  · have once : ∀ n ∈ fields.map (·.1), written.countP (·.1 == n) ≤ 1 := by
      intro n member
      have own : kept.countP (·.1 == n) ≤ 1 := by
        have counted := nodup_iff_count_le_one.1 (distinct.sublist each.names) n
        rwa [count_eq_countP, countP_map] at counted
      have foreign : unknown.countP (·.1 == n) = 0 := by
        rw [countP_eq_zero]
        intro field other eq
        exact new field other (eq_of_beq eq ▸ member)
      rw [order.countP_eq, countP_append]
      omega
    simp only [named, all_eq_true, decide_eq_true_eq]
    rw [if_pos once]
  · intro field member
    obtain ⟨loose, there⟩ := each.mem distinct member
    cases hit : written.lookup field.1 with
    | some found =>
      obtain ⟨front, behind, split, _⟩ := lookup_eq_some_iff.1 hit
      have isIn : (field.1, found) ∈ written := by simp [split]
      exact ⟨isIn, loose found ((mine field member found).1 isIn)⟩
    | none =>
      refine there.resolve_right fun ⟨found, isIn⟩ => ?_
      simpa using lookup_eq_none_iff.1 hit _ ((mine field member found).2 isIn)

/-- A record is read field by field, wherever they stand. -/
theorem loosens_record (ns : List String) (isNames : fields.map (·.1) = ns)
    (good : (∀ n ∈ ns, isTag n = false) ∧ ns.Nodup) (loose : Loosens (.obj fields) other) :
    ∃ written, other = .obj written ∧ named ns written = some (ns.map fun n => written.lookup n) ∧
      ∀ field ∈ fields, Holds written field (written.lookup field.1) := by
  subst isNames
  obtain ⟨plain, distinct⟩ := good
  generalize isWhole : Json.obj fields = whole at loose
  cases loose with
  | same =>
    have each : ∀ fields, Kept Loosens fields fields := fun fields => by
      induction fields with
      | nil => exact .nil
      | cons field tl ih => exact .keep (.same field.2) ih
    have order : fields.Perm (fields ++ []) := by rw [append_nil]
    exact ⟨fields, isWhole.symm, (each fields).holds order distinct nofun⟩
  | list => cases isWhole
  | variant tag =>
    cases isWhole
    simp [tag] at plain
  | record _ each new order =>
    cases isWhole
    exact ⟨_, rfl, each.holds order distinct new⟩

/-- Whatever stands in a record is less deep than the record. -/
private theorem depth_lt_of_mem (mem : (n, v) ∈ written) : v.depth < (Json.obj written).depth := by
  rw [depth, Nat.lt_succ_iff]
  induction written with
  | nil => cases mem
  | cons field tl ih =>
    obtain ⟨other, val⟩ := field
    rw [fieldsDepth]
    rcases mem_cons.1 mem with eq | later
    · rw [(Prod.mk.inj eq).2]
      exact Nat.le_max_left ..
    · exact Nat.le_trans (ih later) (Nat.le_max_right ..)

private theorem depth_lt_of_mem_elems (mem : other ∈ elems) : other.depth < (Json.arr elems).depth := by
  rw [depth, Nat.lt_succ_iff]
  induction elems with
  | nil => cases mem
  | cons val tl ih =>
    rw [elemsDepth]
    rcases mem_cons.1 mem with rfl | later
    · exact Nat.le_max_left ..
    · exact Nat.le_trans (ih later) (Nat.le_max_right ..)

section Fields
variable {α : Type} {decode : Json → Option α} {x : α} {d : Nat}
variable {encode : α → Json} {xs : List α} {o : Option α}

def Reads (d : Nat) (decode : Json → Option α) (v : Json) (x : α) : Prop :=
  ∀ other, other.depth < d → Loosens v other → decode other = some x

theorem Holds.there (h : Holds written (n, v) (written.lookup n)) (notNull : v ≠ .null) :
    ∃ other, written.lookup n = some other ∧ other.depth < (Json.obj written).depth ∧ Loosens v other := by
  cases hit : written.lookup n with
  | none => exact absurd (by rwa [hit] at h) notNull
  | some other =>
    rw [hit] at h
    exact ⟨other, rfl, depth_lt_of_mem h.1, h.2⟩

theorem Holds.required (h : Holds written (n, v) (written.lookup n)) (shallow : (Json.obj written).depth ≤ d)
    (notNull : v ≠ .null) (reads : Reads d decode v x) : Json.required decode (written.lookup n) = some x := by
  obtain ⟨other, hit, below, loose⟩ := h.there notNull
  rw [hit]
  exact reads other (Nat.lt_of_lt_of_le below shallow) loose

theorem reads_list {elems : List Json} (each : ∀ x ∈ xs, Reads d decode (encode x) x)
    (shallow : (Json.arr elems).depth ≤ d) (loose : List.Forall₂ Loosens (xs.map encode) elems) :
    elems.mapM decode = some xs := by
  have deep : ∀ other ∈ elems, other.depth < d := fun other mem => Nat.lt_of_lt_of_le (depth_lt_of_mem_elems mem) shallow
  clear shallow
  induction xs generalizing elems with
  | nil =>
    cases loose
    rfl
  | cons x xs ih =>
    cases loose with
    | cons first tl =>
      rw [mapM_cons, each x mem_cons_self _ (deep _ mem_cons_self) first,
        ih (fun y mem => each y (mem_cons_of_mem _ mem)) tl fun other mem => deep other (mem_cons_of_mem _ mem)]
      rfl

theorem Holds.list (h : Holds written (n, .arr (xs.map encode)) (written.lookup n))
    (shallow : (Json.obj written).depth ≤ d) (each : ∀ x ∈ xs, Reads d decode (encode x) x) :
    (Json.required list? (written.lookup n)).bind (·.mapM decode) = some xs := by
  obtain ⟨other, hit, below, loose⟩ := h.there nofun
  obtain ⟨elems, rfl, others⟩ := loosens_arr loose
  rw [hit]
  exact reads_list each (Nat.le_trans (Nat.le_of_lt below) shallow) others

theorem optional_reads (loose : Loosens (.ofOption encode o) other) (notNull : ∀ x, encode x ≠ .null)
    (reads : ∀ x, o = some x → decode other = some x) :
    Json.optional decode (some other) = some o := by
  cases o with
  | none => rw [(loosens_null loose).2 rfl, Json.optional]
  | some x =>
    have isRead := reads x rfl
    have isThere : other ≠ .null := mt (loosens_null loose).1 (notNull x)
    cases other <;> first | exact absurd rfl isThere | exact congrArg (Option.map some) isRead

theorem Holds.optional (h : Holds written (n, .ofOption encode o) (written.lookup n))
    (shallow : (Json.obj written).depth ≤ d) (notNull : ∀ x, encode x ≠ .null)
    (reads : ∀ x, o = some x → Reads d decode (encode x) x) : Json.optional decode (written.lookup n) = some o := by
  cases hit : written.lookup n with
  | none =>
    rw [hit] at h
    cases o with
    | none => rfl
    | some x => exact absurd h (notNull x)
  | some other =>
    rw [hit] at h
    refine optional_reads h.2 notNull ?_
    rintro x rfl
    exact reads x rfl other (Nat.lt_of_lt_of_le (depth_lt_of_mem h.1) shallow) h.2

end Fields
end Midend.Json
