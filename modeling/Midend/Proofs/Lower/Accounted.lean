import Midend.Proofs.Lower.Frame
import Midend.Proofs.Lower.Mistakes
import Midend.Proofs.Meaning.Preserved

/-! Every item of a program is accounted for: it is a function of the module, or a global, or an
error of the report. -/
namespace Midend
open List

namespace Graph

def functionName? (g : Graph) (v : ValueId) : Option String :=
  match g.kind? v with
  | some (.function f) => some f.name
  | _ => none

def globalName? (g : Graph) (v : ValueId) : Option String :=
  match g.kind? v with
  | some (.global name) => some name
  | _ => none

variable {base g : Graph}

private theorem Framed.functionNames (framed : base.Framed g) {funcs : List ValueId}
    (into : ∀ f ∈ funcs, f.index < base.values.size) :
    funcs.map g.functionName? = funcs.map base.functionName? := by
  apply map_congr_left
  intro f mem
  rw [functionName?, framed.kind? f (into f mem), functionName?]

private theorem Framed.globalNames (framed : base.Framed g) {gs : List ValueId}
    (into : ∀ global ∈ gs, global.index < base.values.size) :
    gs.map g.globalName? = gs.map base.globalName? := by
  apply map_congr_left
  intro global mem
  rw [globalName?, framed.kind? global (into global mem), globalName?]

end Graph

structure Ledger where
  functions : List (Option String) := []
  globals : List (Option String) := []
  errors : Nat := 0
deriving DecidableEq, Repr

namespace Ledger

/-- An item is entered once: as a function, as a global, or as an error. -/
def enter (ledger : Ledger) : Item → Except LowerError Unit → Ledger
  | .func f, .ok () => { ledger with functions := ledger.functions ++ [some f.name] }
  | .global d, .ok () => { ledger with globals := ledger.globals ++ [some d.name] }
  | _, .error _ => { ledger with errors := ledger.errors + 1 }

end Ledger

section Survivors
variable (items : List Item) (rs : List (Except LowerError Unit))

def keptFunctions : List String :=
  (items.zip rs).filterMap fun
    | (.func f, .ok ()) => some f.name
    | _ => none

def keptGlobals : List String :=
  (items.zip rs).filterMap fun
    | (.global d, .ok ()) => some d.name
    | _ => none

private theorem kept_or_dropped (paired : rs.length = items.length) :
    (keptFunctions items rs).length + (keptGlobals items rs).length + rs.countP (!·.isOk) =
      items.length := by
  induction items generalizing rs with
  | nil =>
    rw [eq_nil_of_length_eq_zero paired]
    rfl
  | cons i tl ih =>
    obtain ⟨res, others, rfl⟩ := exists_cons_of_length_eq_add_one paired
    have tail := ih others (by simpa using paired)
    cases res <;> cases i <;>
      simp [keptFunctions, keptGlobals, Except.isOk, Except.toBool] at tail ⊢ <;> omega

end Survivors

namespace Lowering
variable {s t : Lowering}
variable {i : Item} {res : Except LowerError Unit} {rs : List (Except LowerError Unit)}

def ledger (s : Lowering) : Ledger where
  functions := s.module.functions.map s.module.graph.functionName?
  globals := s.module.globals.map s.module.graph.globalName?
  errors := s.module.report.errorCount

private theorem ledger_start (name : String) : (start name).ledger = {} := rfl

theorem Ordered.inside (ord : s.Ordered) : ∀ f ∈ s.module.functions, f.index < s.module.graph.values.size :=
  fun f mem => (ord.functions f mem).1.inside

private theorem globals_inside (named : none ∉ s.ledger.globals) :
    ∀ global ∈ s.module.globals, global.index < s.module.graph.values.size := by
  intro global mem
  have old : s.module.graph.globalName? global ≠ none := fun unnamed =>
    named (mem_map.2 ⟨global, mem, unnamed⟩)
  cases hit : s.module.graph.kind? global with
  | none => simp [Graph.globalName?, hit] at old
  | some k => exact Graph.lt_of_kind? hit

private theorem Ordered.ledger_eq {funcs gs : List ValueId} (ord : s.Ordered) (named : none ∉ s.ledger.globals)
    (ran : (Lower.item i).run s = .ok (res, t))
    (fs : t.module.functions = s.module.functions ++ funcs)
    (isGlobals : t.module.globals = s.module.globals ++ gs) : t.ledger =
      ⟨s.ledger.functions ++ funcs.map t.module.graph.functionName?,
        s.ledger.globals ++ gs.map t.module.graph.globalName?,
        s.ledger.errors + (Lower.mistakeOf res).length⟩ := by
  have framed := (Lower.item_continues ord.toSettled ran).framed
  unfold ledger
  rw [fs, isGlobals, map_append, map_append, framed.functionNames ord.inside,
    framed.globalNames (globals_inside named), (Lower.item_notes i).errorCount ran]

private theorem Ordered.ledger_failed {e : LowerError} (ord : s.Ordered) (named : none ∉ s.ledger.globals)
    (ran : (Lower.item i).run s = .ok (.error e, t)) : t.ledger = s.ledger.enter i (.error e) := by
  obtain ⟨fs, gs, _⟩ := (ord.item_frame ran).failed e rfl
  rw [ord.ledger_eq named ran (fs.trans (append_nil _).symm) (gs.trans (append_nil _).symm)]
  cases i <;> simp [Ledger.enter, Lower.mistakeOf]

private theorem Ordered.ledger_function {f : FuncDef} (ord : s.Ordered) (named : none ∉ s.ledger.globals)
    (ran : (Lower.function f).run s = .ok (.ok (), t)) :
    t.ledger = s.ledger.enter (.func f) (.ok ()) ∧ some f.name ∉ s.ledger.functions := by
  cases Lower.function_run ran with
  | @kept fn m final unknown created lowered =>
    obtain ⟨⟨args, ho⟩, eq⟩ := Lower.opened_of_created ord.toSettled created
    have left := Lower.left_of_intact ord.toSettled eq (Lower.functionBody_ends ho _ _ lowered).1
    obtain ⟨keeps, _⟩ := Lower.functionBody_keeps ho.added.consistent lowered
    have k : final.left.graph.kind? fn = some (.function ⟨f.name, args⟩) := keeps.functions _ _ ho.added.kind?
    refine ⟨?_, ?_⟩
    · rw [ord.ledger_eq (i := .func f) named ran left.functions (left.globals.trans (append_nil _).symm)]
      show (⟨_, _, _⟩ : Ledger) = ⟨_ ++ [some f.name], _, _⟩
      simp [Graph.functionName?, k, Lower.mistakeOf]
    · intro isIn
      obtain ⟨other, mem, n⟩ := mem_map.1 isIn
      have ne := find?_eq_none.1 unknown other mem
      unfold Graph.functionName? at n
      split at n
      next d hit =>
        rw [hit] at ne
        exact ne (beq_iff_eq.2 (Option.some.inj n))
      next => cases n

private theorem Ordered.ledger_global {d : Decl} (ord : s.Ordered) (named : none ∉ s.ledger.globals)
    (ran : (Lower.global d).run s = .ok (.ok (), t)) : t.ledger = s.ledger.enter (.global d) (.ok ()) := by
  cases run : Lower.global_run ord.consistent ran with
  | @made graph global data acc k isTy =>
    rw [ord.ledger_eq (i := .global d) named ran (append_nil _).symm rfl]
    simp [Graph.globalName?, k, Lower.mistakeOf, Ledger.enter]

private theorem Ordered.ledger_item (ord : s.Ordered) (named : none ∉ s.ledger.globals)
    (ran : (Lower.item i).run s = .ok (res, t)) :
    t.ledger = s.ledger.enter i res ∧ ∀ f, i = .func f → res = .ok () → some f.name ∉ s.ledger.functions := by
  cases res with
  | error e => exact ⟨ord.ledger_failed named ran, fun _ _ => nofun⟩
  | ok val =>
    cases i with
    | func f =>
      obtain ⟨ent, new⟩ := ord.ledger_function named ran
      refine ⟨ent, ?_⟩
      rintro _ ⟨⟩ _
      exact new
    | global d => exact ⟨ord.ledger_global named ran, nofun⟩

private theorem none_notMem_enter {ledger : Ledger} (named : none ∉ ledger.globals) (i : Item) (res : Except LowerError Unit) :
    none ∉ (ledger.enter i res).globals := by
  cases res <;> cases i <;> simp [Ledger.enter, named]

private theorem nodup_enter {ledger : Ledger} (distinct : ledger.functions.Nodup)
    (new : ∀ f, i = .func f → res = .ok () → some f.name ∉ ledger.functions) :
    (ledger.enter i res).functions.Nodup := by
  cases res with
  | error e => cases i <;> exact distinct
  | ok val =>
    cases i with
    | global d => exact distinct
    | func f =>
      refine nodup_append.2 ⟨distinct, nodup_singleton _, ?_⟩
      intro one mem other isName eq
      rw [mem_singleton] at isName
      exact new f rfl rfl (isName ▸ eq ▸ mem)

private theorem Ordered.ledger_outcomes {items : List Item} (ord : s.Ordered) (named : none ∉ s.ledger.globals)
    (distinct : s.ledger.functions.Nodup) (done : s.outcomes items = .ok (rs, t)) : t.ledger =
      ⟨s.ledger.functions ++ (keptFunctions items rs).map some,
        s.ledger.globals ++ (keptGlobals items rs).map some, s.ledger.errors + rs.countP (!·.isOk)⟩ ∧
      t.ledger.functions.Nodup := by
  induction items generalizing s rs with
  | nil =>
    cases done
    simp [keptFunctions, keptGlobals, distinct]
  | cons i tl ih =>
    obtain ⟨⟨res, mid⟩, ran, next⟩ := bind_eq_ok.1 done
    obtain ⟨⟨others, last⟩, followed, eq⟩ := bind_eq_ok.1 next
    cases eq
    obtain ⟨ent, new⟩ := ord.ledger_item named ran
    have ordered' : mid.Ordered := ord.item (map_eq_ok.2 ⟨_, ran, rfl⟩)
    obtain ⟨tl, distinct⟩ := ih ordered' (ent ▸ none_notMem_enter named i res)
      (ent ▸ nodup_enter distinct new) followed
    refine ⟨?_, distinct⟩
    rw [tl, ent]
    cases res <;> cases i <;> simp [Ledger.enter, keptFunctions, keptGlobals, Except.isOk, Except.toBool] <;> omega

private theorem outcomes_split {front back : List Item} (done : s.outcomes (front ++ i :: back) = .ok (rs, t)) :
    ∃ firsts mid res next lasts, s.outcomes front = .ok (firsts, mid) ∧
      (Lower.item i).run mid = .ok (res, next) ∧ next.outcomes back = .ok (lasts, t) ∧
      rs = firsts ++ res :: lasts := by
  rw [outcomes_append] at done
  obtain ⟨⟨firsts, mid⟩, pre, done⟩ := bind_eq_ok.1 done
  obtain ⟨⟨others, last⟩, followed, eq⟩ := bind_eq_ok.1 done
  cases eq
  obtain ⟨⟨res, next⟩, ran, followed⟩ := bind_eq_ok.1 followed
  obtain ⟨⟨lasts, final⟩, tl, eq⟩ := bind_eq_ok.1 followed
  cases eq
  exact ⟨firsts, mid, res, next, lasts, pre, ran, tl, rfl⟩

end Lowering

private theorem Lowering.finish_eq {s : Lowering} {rs : List (Except LowerError Unit)}
    (errors : s.module.report.errorCount = rs.countP (!·.isOk)) :
    s.finish = if ∀ res ∈ rs, res.isOk then .ok s.module
      else .error (.failed (rs.countP (!·.isOk)) s.module.report.summary) := by
  have none : rs.countP (!·.isOk) = 0 ↔ ∀ res ∈ rs, res.isOk := by
    simp [countP_eq_zero]
  unfold Lowering.finish
  simp only [Report.hasErrors, errors, decide_eq_true_eq]
  by_cases all : ∀ res ∈ rs, res.isOk
  · rw [if_pos all, if_neg (Nat.not_lt.2 (Nat.le_of_eq (none.2 all)))]
  · rw [if_neg all, if_pos (Nat.pos_of_ne_zero fun zero => all (none.1 zero))]

/-- Every item of a program is accounted for once, as a function, as a global or as an error. So the
three numbers add up to that of the items, functions and globals stand in the order of their items,
functions have different names, and there is a module to return if no item was dropped. After every item
the counters of errors and of warnings are the numbers of those that were recorded. -/
theorem every_item_accounted_for (p : Program) (name : String) (after : Lowering)
    (done : (Lowering.start name).program p = .ok after) :
    ∃ results, (Lowering.start name).outcomes p.items = .ok (results, after) ∧
      (∀ front i back, p.items = front ++ i :: back → ∃ s result next, (Lowering.start name).program ⟨front⟩ = .ok s ∧
        results[front.length]? = some result ∧ (Lower.item i).run s = .ok (result, next) ∧
        next.ledger = s.ledger.enter i result ∧ s.module.report.Counted ∧ next.module.report.Counted ∧
        next.program ⟨back⟩ = .ok after) ∧
      after.module.functions.length + after.module.globals.length + after.module.report.errorCount = p.items.length ∧
      after.module.functions.map after.module.graph.functionName? = (keptFunctions p.items results).map some ∧
      after.module.globals.map after.module.graph.globalName? = (keptGlobals p.items results).map some ∧
      (keptFunctions p.items results).Nodup ∧
      p.lower name = .ok (if ∀ result ∈ results, result.isOk then .ok after.module
        else .error (.failed (results.countP (!·.isOk)) after.module.report.summary)) ∧
      after.module.report.Counted := by
  obtain ⟨items⟩ := p
  have ordered := Lowering.ordered_start name
  have start : (Lowering.start name).module.report.Counted := ⟨rfl, rfl⟩
  have ran := done
  rw [Lowering.program_eq_outcomes] at ran
  obtain ⟨⟨results, final⟩, all, rfl⟩ := map_eq_ok.1 ran
  obtain ⟨ledger, distinct⟩ := ordered.ledger_outcomes (by simp [Lowering.ledger_start])
    (by simp [Lowering.ledger_start]) all
  have functions : final.module.functions.map final.module.graph.functionName? =
      (keptFunctions items results).map some := congrArg Ledger.functions ledger
  have globals : final.module.globals.map final.module.graph.globalName? = (keptGlobals items results).map some :=
    congrArg Ledger.globals ledger
  have errors : final.module.report.errorCount = results.countP (!·.isOk) :=
    (congrArg Ledger.errors ledger).trans (Nat.zero_add _)
  refine ⟨results, all, ?_, ?_, functions, globals, ?_, ?_, ?_⟩
  · intro front i back split
    have parts := all
    rw [show items = front ++ i :: back from split] at parts
    obtain ⟨firsts, middle, result, next, lasts, before, step, rest, rfl⟩ := Lowering.outcomes_split parts
    have reached : (Lowering.start name).program ⟨front⟩ = .ok middle := by
      rw [Lowering.program_eq_outcomes, before]
      rfl
    obtain ⟨earlier, _⟩ := ordered.ledger_outcomes (by simp [Lowering.ledger_start])
      (by simp [Lowering.ledger_start]) before
    have named : none ∉ middle.ledger.globals := by simp [earlier, Lowering.ledger_start]
    have counted := Lowering.outcomes_counted before start
    refine ⟨middle, result, next, reached, ?_, step, ((ordered.program reached).ledger_item named step).1, counted,
      (Lower.item_notes i).counted step counted, ?_⟩
    · rw [← Lowering.length_of_outcomes before]
      simp
    · rw [Lowering.program_eq_outcomes, rest]
      rfl
  · have counted := kept_or_dropped items results (Lowering.length_of_outcomes all)
    have sameFunctions := congrArg List.length functions
    have sameGlobals := congrArg List.length globals
    rw [length_map, length_map] at sameFunctions sameGlobals
    rw [sameFunctions, sameGlobals, errors, counted]
  · rw [show final.ledger.functions = (keptFunctions items results).map some from functions] at distinct
    exact distinct.of_map some
  · rw [Program.lower, done]
    exact congrArg Except.ok (Lowering.finish_eq errors)
  · exact Lowering.outcomes_counted all start

def mixedItems : Program where
  items := [
    .global { name := "x", ty := .int32, initializer := some (.ofInt 1) },
    .func { name := "f", returnType := .void, params := [], body := .breakLoop .unknown },
    .func
      { name := "f"
        returnType := .int32
        params := []
        body := .compound [.ret (some (.ofName "x" .int32)) .unknown, .empty .unknown] .unknown },
    .func { name := "f", returnType := .void, params := [], body := .empty .unknown },
    .global { name := "y", ty := .int32, initializer := some (.ofName "x" .int32) }]

theorem mixed_items_accounted_for : ∃ after results, (Lowering.start "unit").program mixedItems = .ok after ∧
    (Lowering.start "unit").outcomes mixedItems.items = .ok (results, after) ∧
    after.module.functions.length + after.module.globals.length + after.module.report.errorCount = 5 ∧
    after.module.functions.map after.module.graph.functionName? = [some "f"] ∧
    after.module.globals.map after.module.graph.globalName? = [some "x"] ∧
    mixedItems.lower "unit" = .ok (.error (.failed 3 after.module.report.summary)) ∧
    after.module.report.diagnostics.countP (·.severity = .error) = 3 ∧
    after.module.report.diagnostics.countP (·.severity = .warning) = 1 := by
  have counts : ((Lowering.start "unit").outcomes mixedItems.items).toOption.map (fun done =>
      (keptFunctions mixedItems.items done.1, keptGlobals mixedItems.items done.1, done.1.countP (!·.isOk),
        done.2.module.report.errorCount, done.2.module.report.warningCount)) = some (["f"], ["x"], 3, 3, 1) := by
    decide +kernel
  cases done : (Lowering.start "unit").outcomes mixedItems.items with
  | error fault =>
    rw [done] at counts
    cases counts
  | ok pair =>
    obtain ⟨results, after⟩ := pair
    have ran : (Lowering.start "unit").program mixedItems = .ok after := by
      rw [show mixedItems = ⟨mixedItems.items⟩ from rfl, Lowering.program_eq_outcomes, done]
      rfl
    obtain ⟨_, all, _, total, functions, globals, _, lowered, counters⟩ :=
      every_item_accounted_for mixedItems "unit" after ran
    cases done.symm.trans all
    rw [done] at counts
    have found := Option.some.inj counts
    simp only [Prod.mk.injEq] at found
    obtain ⟨named, namedGlobals, dropped, errors, warnings⟩ := found
    have some : ¬ ∀ result ∈ results, result.isOk := by
      intro every
      have none : results.countP (!·.isOk) = 0 := by simpa [countP_eq_zero] using every
      rw [none] at dropped
      cases dropped
    rw [if_neg some, dropped] at lowered
    rw [named] at functions
    rw [namedGlobals] at globals
    exact ⟨after, results, ran, rfl, total, functions, globals, lowered, counters.errors.symm.trans errors,
      counters.warnings.symm.trans warnings⟩

end Midend
