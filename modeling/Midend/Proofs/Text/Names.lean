import Mathlib
import Midend.Names

/-! Printed names tell values apart. A wish is met with a name that nobody has. Only a running number
can be a name that was given before, and then to a value that wished for it. -/
namespace Midend.Names
open List
variable {ns : Names} {id other : ValueId} {hint : Option String} {wish text : String} {n k : Nat}
variable {requests : List (ValueId × Option String)}

private theorem candidate_injective (wish : String) : (candidate wish).Injective := by
  have numbered : ∀ n, wish ++ toString (n + 1) ≠ wish := by
    intro n eq
    have nothing := (String.append_right_inj wish).1 (eq.trans String.append_empty.symm)
    simp at nothing
  intro n k eq
  cases n with
  | zero =>
    cases k with
    | zero => rfl
    | succ k => exact absurd eq.symm (numbered k)
  | succ n =>
    cases k with
    | zero => exact absurd eq (numbered n)
    | succ k => exact Nat.repr_injective ((String.append_right_inj wish).1 eq)

/-- The search for a name ends at the first candidate that is not among the names, and it passes each
name at most once. -/
private theorem firstFree_eq (wish : String) (rivals : List String) (n : Nat) :
    ∃ k, n ≤ k ∧ k ≤ n + rivals.length ∧ firstFree wish rivals n = candidate wish k ∧
      candidate wish k ∉ rivals ∧ ∀ i, n ≤ i → i < k → candidate wish i ∈ rivals := by
  fun_induction firstFree wish rivals n with
  | case1 rivals n taken ih =>
    obtain ⟨k, above, below, hit, isFree, others⟩ := ih
    have ne : ∀ i, n < i → candidate wish i ≠ candidate wish n := fun i later eq =>
      Nat.ne_of_gt later (candidate_injective wish eq)
    refine ⟨k, Nat.le_of_succ_le above, ?_, hit, ?_, ?_⟩
    · have positive := length_pos_of_mem taken
      rw [length_erase_of_mem taken] at below
      omega
    · rwa [mem_erase_of_ne (ne k above)] at isFree
    · intro i first last
      rcases Nat.eq_or_lt_of_le first with rfl | later
      · exact taken
      · exact mem_of_mem_erase (others i later last)
  | case2 rivals n isFree => exact ⟨n, Nat.le_refl n, Nat.le_add_right .., rfl, isFree, fun i first last => by omega⟩

def texts (names : Names) : List String := names.given.map (·.2)

private theorem mem_rivals : candidate wish k ∈ ns.rivals wish ↔ candidate wish k ∈ ns.texts := by
  have starts : wish.toList.isPrefixOf (candidate wish k).toList := by
    rw [List.isPrefixOf_iff_prefix]
    cases k with
    | zero => exact prefix_rfl
    | succ k => exact ⟨_, String.toList_append.symm⟩
  simp [rivals, texts, starts]

private theorem free_eq (ns : Names) (wish : String) :
    ∃ k ≤ ns.given.length, ns.free wish = candidate wish k ∧ candidate wish k ∉ ns.texts ∧
      ∀ i < k, candidate wish i ∈ ns.texts := by
  obtain ⟨k, _, below, hit, isFree, others⟩ := firstFree_eq wish (ns.rivals wish) 0
  refine ⟨k, ?_, hit, mt mem_rivals.2 isFree, fun i last => mem_rivals.1 (others i (Nat.zero_le i) last)⟩
  have shorter := length_filter_le (fun name => wish.toList.isPrefixOf name.toList) ns.texts.reverse
  simp only [rivals, texts, length_reverse, length_map] at below shorter
  omega

private theorem mem_texts (named : ns.get? id = some text) : text ∈ ns.texts := by
  obtain ⟨front, behind, given, _⟩ := lookup_eq_some_iff.1 named
  simp [texts, given]

/-- The names after some requests. Each gives a value and the name it wishes for, if any. -/
def after (names : Names) (requests : List (ValueId × Option String)) : Names :=
  requests.foldl (fun names request => (names.name request.1 request.2).2) names

private theorem after_append (ns : Names) (first second : List (ValueId × Option String)) :
    ns.after (first ++ second) = (ns.after first).after second :=
  foldl_append

private theorem get?_name_of_some (named : ns.get? id = some text) (request : ValueId × Option String) :
    (ns.name request.1 request.2).2.get? id = some text := by
  by_cases eq : id = request.1
  · rw [← eq, name_of_get? named]
    exact named
  · rw [get?_name_of_ne ns eq, named]

private theorem get?_after (named : ns.get? id = some text) (requests : List (ValueId × Option String)) :
    (ns.after requests).get? id = some text := by
  induction requests generalizing ns with
  | nil => exact named
  | cons request requests ih => exact ih (get?_name_of_some named request)

private theorem next_name (ns : Names) (id : ValueId) (hint : Option String) : ns.next ≤ (ns.name id hint).2.next ∧
      (ns.get? id = none → hint = none → (ns.name id hint).2.next = ns.next + 1) := by
  unfold name
  split
  next hit => exact ⟨Nat.le_refl _, fun missing => by simp [missing] at hit⟩
  next =>
    cases hint with
    | none => exact ⟨Nat.le_succ _, fun _ _ => rfl⟩
    | some wish => exact ⟨Nat.le_refl _, fun _ => nofun⟩

private theorem next_after (ns : Names) (requests : List (ValueId × Option String)) :
    ns.next ≤ (ns.after requests).next := by
  induction requests generalizing ns with
  | nil => exact Nat.le_refl _
  | cons request requests ih => exact Nat.le_trans (next_name ns request.1 request.2).1 (ih _)

def Gives (names : Names) (requests earlier : List (ValueId × Option String)) (id : ValueId) (hint : Option String)
    (text : String) : Prop :=
  (∃ later, requests = earlier ++ (id, hint) :: later) ∧ (names.after earlier).get? id = none ∧
    ((names.after earlier).name id hint).1 = text

private theorem gives_of_get?_after (missing : ns.get? id = none) (named : (ns.after requests).get? id = some text) :
    ∃ pre hint, ns.Gives requests pre id hint text := by
  induction requests generalizing ns with
  | nil => cases missing.symm.trans named
  | cons request requests ih =>
    obtain ⟨first, hint⟩ := request
    by_cases eq : id = first
    · subst eq
      have kept := get?_after (get?_name ns id hint) requests
      exact ⟨[], hint, ⟨requests, rfl⟩, missing, Option.some.inj (kept.symm.trans named)⟩
    · obtain ⟨pre, hint', ⟨later, split⟩, unnamed, given⟩ :=
        ih ((get?_name_of_ne ns eq hint).trans missing) named
      exact ⟨(first, hint) :: pre, hint', ⟨later, by rw [split]; rfl⟩, unnamed, given⟩

private theorem name_of_wish (missing : ns.get? id = none) : (ns.name id (some wish)).1 = ns.free wish := by
  simp [name, missing]

private theorem name_of_none (missing : ns.get? id = none) : (ns.name id none).1 = toString ns.next := by
  simp [name, missing]

/-- Of two values with one name, the later one was given its running number, and the earlier one wished for
a name that came out like that number. -/
private theorem Gives.same_text {pre later : List (ValueId × Option String)} {hint' : Option String}
    (first : ns.Gives requests pre id hint text) (second : ns.Gives requests later other hint' text)
    (before : pre.length < later.length) :
    hint' = none ∧ text = toString (ns.after later).next ∧ (ns.after later).get? id = some text ∧
      ∃ wish, hint = some wish ∧ ns.Gives later pre id hint text := by
  obtain ⟨⟨tl, split⟩, unnamed, given⟩ := first
  obtain ⟨⟨rest', split'⟩, unnamed', given'⟩ := second
  obtain ⟨between, rfl⟩ : ∃ between, later = pre ++ (id, hint) :: between := by
    have initial : pre ++ [(id, hint)] <+: later := by
      have within : pre ++ [(id, hint)] <+: requests := ⟨tl, by simp [split]⟩
      exact prefix_of_prefix_length_le within ⟨_, split'.symm⟩ (by simpa using before)
    obtain ⟨between, whole⟩ := initial
    exact ⟨between, by simp [← whole]⟩
  have old : (ns.after (pre ++ (id, hint) :: between)).get? id = some text := by
    rw [after_append]
    exact get?_after (given ▸ get?_name (ns.after pre) id hint) between
  cases hint' with
  | some wish =>
    obtain ⟨k, _, hit, isFree, _⟩ := free_eq (ns.after (pre ++ (id, hint) :: between)) wish
    rw [name_of_wish unnamed', hit] at given'
    exact absurd (mem_texts old) (given' ▸ isFree)
  | none =>
    rw [name_of_none unnamed'] at given'
    refine ⟨rfl, given'.symm, old, ?_⟩
    cases hint with
    | some wish => exact ⟨wish, rfl, ⟨between, rfl⟩, unnamed, given⟩
    | none =>
      -- Running numbers only grow, so no two of them are alike.
      rw [name_of_none unnamed] at given
      have grown := next_after ((ns.after pre).name id none).2 between
      rw [(next_name _ id none).2 unnamed rfl] at grown
      have eq := Nat.repr_injective (given.trans given'.symm)
      rw [after_append] at eq
      change (ns.after pre).next = (((ns.after pre).name id none).2.after between).next at eq
      omega

private theorem isDigit_toString (n : Nat) : ∀ c ∈ (toString n).toList, c.isDigit := by
  intro c mem
  rw [Nat.toString_eq_repr, Nat.toList_repr] at mem
  exact Nat.isDigit_of_mem_toDigits (by decide) (by decide) mem

private theorem candidate_ne_toString {c : Char} (mem : c ∈ wish.toList) (letter : c.isDigit = false) :
    candidate wish k ≠ toString n := by
  intro eq
  have isIn : c ∈ (candidate wish k).toList := by
    cases k with
    | zero => exact mem
    | succ k => exact String.toList_append ▸ mem_append_left _ mem
  rw [eq] at isIn
  simp [isDigit_toString n c isIn] at letter

/-- Two values with one name: the later one got its running number, which an earlier one has by its wish. -/
private theorem same_text_of_get? (different : id ≠ other) (named : (after {} requests).get? id = some text)
    (named' : (after {} requests).get? other = some text) :
    ∃ first second pre later wish, (first = id ∧ second = other ∨ first = other ∧ second = id) ∧
      Gives {} requests later second none text ∧ text = toString (after {} later).next ∧
      Gives {} later pre first (some wish) text := by
  obtain ⟨pre, hint, gives⟩ := gives_of_get?_after rfl named
  obtain ⟨earlier', hint', gives'⟩ := gives_of_get?_after rfl named'
  rcases Nat.lt_trichotomy pre.length earlier'.length with before | same | before
  · obtain ⟨rfl, number, _, wish, rfl, older⟩ := gives.same_text gives' before
    exact ⟨id, other, pre, earlier', wish, .inl ⟨rfl, rfl⟩, gives', number, older⟩
  · obtain ⟨⟨later, split⟩, _⟩ := gives
    obtain ⟨⟨later', split'⟩, _⟩ := gives'
    have tails := (append_inj (split.symm.trans split') same).2
    simp only [List.cons.injEq, Prod.mk.injEq] at tails
    exact absurd tails.1.1 different
  · obtain ⟨rfl, number, _, wish, rfl, older⟩ := gives'.same_text gives before
    exact ⟨other, id, earlier', pre, wish, .inr ⟨rfl, rfl⟩, gives, number, older⟩

/-- Names after any requests. A wish is met by its first candidate that nobody has; a value keeps its name
whatever it wishes for later; two values share a name only if the later one has no wish and its running
number is the name that an earlier one got for its wish; so none do if every wish holds something other than
a digit. -/
theorem printed_names_identify (requests : List (ValueId × Option String)) :
    (∀ id wish, (after {} requests).get? id = none →
      ∃ k ≤ (after {} requests).given.length, ((after {} requests).name id (some wish)).1 = candidate wish k ∧
        candidate wish k ∉ (after {} requests).texts ∧ ∀ i < k, candidate wish i ∈ (after {} requests).texts) ∧
    (∀ id hint later hint', ((after {} (requests ++ (id, hint) :: later)).name id hint').1 =
      ((after {} requests).name id hint).1) ∧
    (∀ id other text, id ≠ other → (after {} requests).get? id = some text →
      (after {} requests).get? other = some text →
      ∃ first second earlier later wish, (first = id ∧ second = other ∨ first = other ∧ second = id) ∧
        Gives {} requests later second none text ∧ text = toString (after {} later).next ∧
        Gives {} later earlier first (some wish) text) ∧
    ((∀ request ∈ requests, ∀ wish, request.2 = some wish → ¬ wish.toList.all Char.isDigit) →
      ∀ id other text, (after {} requests).get? id = some text → (after {} requests).get? other = some text →
        id = other) := by
  refine ⟨?_, ?_, fun _ _ _ => same_text_of_get?, ?_⟩
  · intro id wish missing
    rw [name_of_wish missing]
    exact free_eq ..
  · intro id hint later hint'
    have kept := name_of_get? (get?_after (get?_name (after {} requests) id hint) later) hint'
    rw [after_append]
    exact (congrArg Prod.fst kept :)
  · intro worded id other text named named'
    by_contra different
    obtain ⟨first, second, earlier, later, wish, _, ⟨⟨rest, split⟩, _⟩, number, ⟨between, split'⟩, missing, given⟩ :=
      same_text_of_get? different named named'
    have letters := worded (first, some wish) (by simp [split, split']) wish rfl
    obtain ⟨c, member, letter⟩ : ∃ c ∈ wish.toList, c.isDigit = false := by simpa using letters
    obtain ⟨k, _, found, _⟩ := free_eq (after {} earlier) wish
    rw [name_of_wish missing, found, number] at given
    exact candidate_ne_toString member letter given

/-- A value that wishes for a digit, and one whose running number it is. -/
example : ((after {} [(⟨4⟩, some "0")]).name ⟨7⟩ none).1 = "0" := by decide +kernel

end Midend.Names
