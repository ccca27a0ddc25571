import Midend.Proofs.Lower.Ordered
import Midend.Proofs.Module.Shift

/-! A function with a mistake leaves no trace but its diagnostics. What was made for it stays in the
graph as a stretch of values that nothing refers to, so the items that come after it are lowered
as if it were missing, with other numbers for their values. -/
namespace Midend
open List Builder

namespace Builder
variable {L : Likeness} {ctx : List Location}

private theorem newValue_matched (thorough : L.Thorough) (k : Kind) (ty : Ty) (lim : Option Nat) :
    Matched L ctx L.rename (addValue (k.rename L.rename) ty lim) (addValue k ty lim) := by
  intro m m' alike v t ran
  obtain ⟨rfl, rfl⟩ := addValue_ok.1 ran
  obtain ⟨eq, like⟩ := thorough.add alike.graph k ty lim
  exact ⟨_, _, addValue_ok.2 ⟨rfl, rfl⟩, eq, { alike with graph := like }⟩

private theorem createFunction_matched (thorough : L.Thorough) (n : String) (ty : Ty) (argNames : List String) :
    Matched L ctx L.rename (createFunction n ty argNames) (createFunction n ty argNames) := by
  refine Matched.ensure.bind fun _ => Matched.ensure.bind fun _ => ?_
  refine (newValue_matched thorough (.function ⟨n, []⟩) ty none).bind fun fn => ?_
  have args : ∀ items : List ((Ty × String) × Nat), Matched L ctx (List.map L.rename)
      (items.mapM fun item => addValue (.argument item.2 item.1.2) item.1.1 (some 0))
      (items.mapM fun item => addValue (.argument item.2 item.1.2) item.1.1 (some 0)) := by
    intro items
    induction items with
    | nil => exact .pure []
    | cons item tl ih =>
      rw [mapM_cons]
      refine (newValue_matched thorough (.argument item.2 item.1.2) item.1.1 (some 0)).bind fun arg => ih.bind fun args => ?_
      exact .pure (arg :: args)
  refine (args _).bind fun args => ?_
  refine (Matched.change fun g g' like => thorough.setKind like fn (.function ⟨n, args⟩)).bind fun _ => ?_
  refine (Matched.modified fun m m' alike => ?_).bind fun _ => .pure fn
  refine { alike with functions := ?_ }
  rw [alike.functions, map_append]
  rfl

private theorem declareGlobal_matched (n : String) (val : ValueId) :
    Matched L ctx id (declareGlobal n (L.rename val)) (declareGlobal n val) := by
  refine .modified fun m m' alike => { alike with symbols := ?_ }
  rw [alike.symbols, ScopeTable.insertGlobal_map]

private theorem createGlobal_matched (thorough : L.Thorough) (name : String) (ty : Ty) (initial : Option ValueId) :
    Matched L ctx L.rename (createGlobal name ty (initial.map L.rename)) (createGlobal name ty initial) := by
  refine (newValue_matched thorough (.global name) (.pointer ty) (some 1)).bind fun global => ?_
  have mem : Matched L ctx L.rename
      (do modify fun m => { m with globals := m.globals ++ [L.rename global] }; return L.rename global)
      (do modify fun m => { m with globals := m.globals ++ [global] }; return global) := by
    refine (Matched.modified fun m m' alike => ?_).bind fun _ => .pure global
    exact ⟨alike.graph, alike.functions, alike.symbols, alike.places, alike.places', alike.insertPoint, alike.current,
      alike.report⟩
  cases initial with
  | none => exact mem
  | some val => exact (addOperand_matched global val).bind fun _ => mem

private theorem endFunction_matched : Matched L ctx id endFunction endFunction :=
  .modified fun _ _ alike => { alike with insertPoint := rfl, current := rfl }

private theorem dropBlock_matched (thorough : L.Thorough) (b : ValueId) :
    Matched L ctx id (dropBlock (L.rename b)) (dropBlock b) := by
  refine (ask_block_matched b).bind fun d => ?_
  refine (Matched.forM (fun i => ?_) d.insts).bind fun _ => ?_
  · exact .change fun g g' like => thorough.dropOperands like i
  · exact .change fun g g' like => thorough.dropOperands like b

private theorem ask_functionBlocks_matched (fn : ValueId) :
    Matched L ctx (List.map L.rename) (ask (·.functionBlocks (L.rename fn))) (ask (·.functionBlocks fn)) := by
  refine .ask fun g g' like bs hit => ?_
  have ok := L.consistent like
  obtain ⟨dests, read, _⟩ := map_eq_ok.1 hit
  obtain ⟨d, old, _⟩ := bind_eq_ok.1 read
  have into := Graph.lt_of_value old
  have layout : g.layout (L.rename fn) = (g'.layout fn).map L.rename := by
    rw [Graph.layout, L.operands like, Graph.layout, filterMap_map, map_filterMap]
    rfl
  rw [ok.1.functionBlocks into, layout] at hit
  cases hit
  exact ⟨_, ok.2.functionBlocks ((L.inside like).1 into), rfl⟩

private theorem removeFunction_matched (thorough : L.Thorough) (fn : ValueId) :
    Matched L ctx id (removeFunction (L.rename fn)) (removeFunction fn) := by
  refine (ask_functionBlocks_matched fn).bind fun bs => ?_
  refine (Matched.forM (dropBlock_matched thorough) bs).bind fun _ => ?_
  refine (Matched.change fun g g' like => thorough.dropOperands like fn).bind fun _ => ?_
  refine (Matched.change fun g g' like => thorough.removeFromUsers like fn).bind fun _ => ?_
  refine (Lower.ask_function_matched fn).bind fun d => .modified fun m m' alike => ?_
  have symbols : (if m.symbols.lookup d.name = some (L.rename fn) then m.symbols.remove d.name else m.symbols) =
      (if m'.symbols.lookup d.name = some fn then m'.symbols.remove d.name else m'.symbols).map L.rename := by
    have lt : m.symbols.lookup d.name = some (L.rename fn) ↔ m'.symbols.lookup d.name = some fn := by
      rw [alike.symbols, ScopeTable.lookup_map, ← Option.map_some, (Option.map_injective L.injective).eq_iff]
    simp only [lt]
    split
    · rw [alike.symbols, ScopeTable.remove_map]
    · exact alike.symbols
  have functions : m.functions.filter (· ≠ L.rename fn) = (m'.functions.filter (· ≠ fn)).map L.rename := by
    rw [alike.functions, filter_map]
    simp [Function.comp_def, L.injective.eq_iff]
  have made : m.current.any (·.function = L.rename fn) = m'.current.any (·.function = fn) := by
    rw [alike.current]
    cases m'.current with
    | none => rfl
    | some st => simp only [Option.map_some, Option.any_some, Likeness.state, L.injective.eq_iff]
  dsimp only
  rw [made]
  split
  next => exact { alike with symbols, functions, insertPoint := rfl, current := rfl }
  next => exact { alike with symbols, functions }

end Builder

namespace Lower
variable {L : Likeness} {ctx : List Location}
variable {α β : Type} {f : β → α} {x : Lower α} {y : Lower β}

theorem Matched.caught (matched : Matched L ctx f x y) :
    Matched L ctx (Except.map f) (ExceptT.lift x.run) (ExceptT.lift y.run) := by
  intro s s' level res t ran
  obtain ⟨⟨hit, final⟩, acted, lifted⟩ := bind_eq_ok.1 (show (x.run s >>= _) = _ from ran)
  cases lifted
  obtain ⟨found', final', acted', eq, path⟩ := matched s s' level hit t acted
  refine ⟨.ok found', final', bind_eq_ok.2 ⟨(found', final'), acted', rfl⟩, ?_, path⟩
  rw [eq]
  rfl

theorem Matched.unless {cond : Bool} {e : LowerError} (matched : Matched L ctx f x y) :
    Matched L ctx f (if cond then Lower.fail e >>= fun _ : Unit => x else x)
      (if cond then Lower.fail e >>= fun _ : Unit => y else y) := by
  split
  next => exact (Matched.fail (f := id)).bind fun _ => matched
  next => exact matched

theorem Matched.modified {h h' : Lowering → Lowering}
    (each : ∀ s s', L.Level ctx s s' → L.Level ctx (h s) (h' s')) :
    Matched L ctx id (modify h) (modify h') := by
  intro s s' level res t ran
  cases ran
  exact ⟨.ok ⟨⟩, h' s', rfl, rfl, each s s' level⟩

private theorem function_matched (thorough : L.Thorough) (f : FuncDef) : Matched L ctx id (function f) (function f) := by
  refine .withContext (.get fun s s' level => ?_)
  rw [findFunction_matched level.module, Option.isSome_map]
  refine .unless ?_
  refine .after (createFunction_matched thorough _ _ _) fun fn => ?_
  refine .after (declareGlobal_matched _ fn) fun _ => ?_
  refine (Matched.caught (.withScope (functionBody_matched (thorough.movable fn) f))).bind fun res => ?_
  refine .after endFunction_matched fun _ => ?_
  have reset : Matched L (f.location :: ctx) id (modify fun s => { s with loops := [] })
      (modify fun s => { s with loops := [] }) := .modified fun s s' level => ⟨level.module, rfl⟩
  refine reset.bind fun _ => ?_
  cases res with
  | ok val => exact .pure ()
  | error e => exact .after (removeFunction_matched thorough fn) fun _ => .throw

private theorem initialValue_matched (e : Expr) :
    Matched L ctx (Option.map L.rename) (initialValue e) (initialValue e) := by
  have stored : ∀ {x : Builder ValueId}, Builder.Matched L ctx L.rename x x →
      Matched L ctx (Option.map L.rename) (some <$> build x) (some <$> build x) := by
    intro x made
    rw [map_eq_pure_bind]
    exact .after made fun val => .pure (some val)
  have folded : Matched L ctx (Option.map L.rename) (foldedValue e) (foldedValue e) := by
    unfold foldedValue
    cases e.fold? with
    | none => exact .pure none
    | some val => exact stored (constInt_matched val _)
  cases e with
  | string val note => exact stored (constStr_matched val)
  | _ => exact folded

private theorem global_matched (thorough : L.Thorough) (d : Decl) : Matched L ctx id (global d) (global d) := by
  refine .withContext ?_
  have made : ∀ initial : Option ValueId, Matched L (d.location :: ctx) id (do
        let global ← build (Builder.createGlobal d.name d.ty.unqualified (initial.map L.rename))
        build (Builder.declareGlobal d.name global))
      (do
        let global ← build (Builder.createGlobal d.name d.ty.unqualified initial)
        build (Builder.declareGlobal d.name global)) := by
    intro initial
    refine .after (createGlobal_matched thorough _ _ initial) fun global => ?_
    exact .build (declareGlobal_matched _ global)
  cases d.initializer with
  | none => exact made none
  | some e =>
    refine (initialValue_matched e).bind fun initial => ?_
    cases initial with
    | some val => exact made (some val)
    | none => exact (Matched.fail (f := Option.map L.rename)).bind fun initial => made initial

private theorem item_matched (thorough : L.Thorough) (i : Item) : Matched L ctx id (item i) (item i) := by
  cases i with
  | func f => exact function_matched thorough f
  | global d => exact global_matched thorough d

end Lower

private theorem ScopeTable.remove_insertGlobal {α : Type} {table : ScopeTable α} {n : String} {val : α}
    (flat : table.inner = []) (free : table.lookup n = none) : (table.insertGlobal n val).remove n = table := by
  obtain ⟨inner, outermost⟩ := table
  subst flat
  have others : ∀ binding ∈ outermost, decide (binding.1 ≠ n) = true := by
    intro binding lt
    have other := lookup_eq_none_iff.1 free binding lt
    exact decide_eq_true fun eq => by simp [eq] at other
  show (⟨[], List.filter _ ((n, val) :: outermost)⟩ : ScopeTable α) = ⟨[], outermost⟩
  rw [filter_cons_of_neg (by simp), filter_eq_self.2 others]

theorem ScopeTable.map_past {table : ScopeTable ValueId} {s0 length : Nat} (flat : table.inner = [])
    (old : ∀ binding ∈ table.outermost, binding.2.index < s0) : table.map (ValueId.past s0 length) = table := by
  obtain ⟨inner, outermost⟩ := table
  subst flat
  show (⟨[], outermost.map _⟩ : ScopeTable ValueId) = ⟨[], outermost⟩
  rw [map_congr_left, map_id']
  intro binding lt
  rw [Prod.map, ValueId.past_of_lt (old binding lt)]
  rfl

namespace Lowering
variable {s s' t : Lowering}
variable {items : List Item} {rs : List (Except LowerError Unit)} {e : LowerError} {f : FuncDef}

/-- Lowers items one after the other, and gives what has become of each of them. -/
def outcomes (s : Lowering) : List Item → Except Fault (List (Except LowerError Unit) × Lowering)
  | [] => .ok ([], s)
  | i :: rest => do
    let (first, s) ← (Lower.item i).run s
    let (others, s) ← outcomes s rest
    return (first :: others, s)

theorem program_eq_outcomes (s : Lowering) (items : List Item) : s.program ⟨items⟩ = (·.2) <$> s.outcomes items := by
  induction items generalizing s with
  | nil => rfl
  | cons i tl ih =>
    show (s.item i >>= fun s => s.program ⟨tl⟩) = _
    rw [funext ih, item, outcomes]
    cases (Lower.item i).run s with
    | error fault => rfl
    | ok pair =>
      show (·.2) <$> pair.2.outcomes tl = (·.2) <$> (pair.2.outcomes tl >>= fun others => pure (pair.1 :: others.1, others.2))
      cases pair.2.outcomes tl <;> rfl

/-- Items can be lowered in two parts. -/
theorem outcomes_append (s : Lowering) (front back : List Item) : s.outcomes (front ++ back) = (do
      let (firsts, s) ← s.outcomes front
      let (lasts, s) ← s.outcomes back
      return (firsts ++ lasts, s)) := by
  induction front generalizing s with
  | nil =>
    show s.outcomes back = s.outcomes back >>= fun lasts => pure ([] ++ lasts.1, lasts.2)
    cases s.outcomes back <;> rfl
  | cons i tl ih =>
    rw [cons_append, outcomes, outcomes]
    cases (Lower.item i).run s with
    | error fault => rfl
    | ok pair =>
      simp only [ih, bind, Except.bind, pure, Except.pure]
      cases pair.2.outcomes tl with
      | error fault => rfl
      | ok firsts =>
        dsimp only
        cases firsts.2.outcomes back <;> rfl

theorem length_of_outcomes (ran : s.outcomes items = .ok (rs, t)) : rs.length = items.length := by
  induction items generalizing s rs with
  | nil =>
    cases ran
    rfl
  | cons i tl ih =>
    obtain ⟨⟨first, mid⟩, _, ran⟩ := bind_eq_ok.1 ran
    obtain ⟨⟨others, final⟩, ran, done⟩ := bind_eq_ok.1 ran
    cases done
    rw [length_cons, length_cons, ih ran]

private theorem outcomes_matched {L : Likeness} {ctx : List Location} (thorough : L.Thorough)
    (level : L.Level ctx s s') (ran : s.outcomes items = .ok (rs, t)) :
    ∃ after', s'.outcomes items = .ok (rs, after') ∧ L.Level ctx t after' := by
  induction items generalizing s s' rs with
  | nil =>
    cases ran
    exact ⟨s', rfl, level⟩
  | cons i tl ih =>
    obtain ⟨⟨first, mid⟩, ran1, ran⟩ := bind_eq_ok.1 ran
    obtain ⟨⟨others, final⟩, ran2, done⟩ := bind_eq_ok.1 ran
    cases done
    obtain ⟨first', middle', ran1', eq, level1⟩ := Lower.item_matched thorough i s s' level first mid ran1
    obtain ⟨after', ran2', level2⟩ := ih level1 ran2
    have eq : first' = first := by
      rw [eq]
      cases first' <;> rfl
    subst eq
    exact ⟨after', bind_eq_ok.2 ⟨_, ran1', bind_eq_ok.2 ⟨_, ran2', rfl⟩⟩, level2⟩

private theorem level_of_shifted {length : Nat} (settled : s.Settled)
    (shifted : Graph.Shifted s.module.graph.values.size length t.module.graph s.module.graph)
    (fs : t.module.functions = s.module.functions) (symbols : t.module.symbols = s.module.symbols)
    (ctx : t.module.contexts = s.module.contexts)
    (idle : t.module.current = none ∧ t.module.insertPoint = none) (outside : t.loops = []) :
    (Likeness.shift s.module.graph.values.size length t.module.report.diagnostics s.module.report.diagnostics).Level
      s.module.contexts t s := by
  refine ⟨⟨shifted, ?_, ?_, ctx, rfl, ?_, ?_, [], ?_, ?_⟩, ?_⟩
  · rw [fs]
    exact (ValueId.map_past fun fn mem => (settled.functions fn mem).1.inside).symm
  · rw [symbols]
    refine (ScopeTable.map_past settled.flat ?_).symm
    exact fun binding lt => (settled.named binding lt).plain.inside
  · rw [idle.2, settled.idle.2]
    rfl
  · rw [idle.1, settled.idle.1]
    rfl
  · rw [append_nil]
  · rw [append_nil]
  · rw [outside, settled.outside]
    rfl

/-- After a function with a mistake the state is like the one before it, unless its name was that of a
global. -/
private theorem level_of_failed (ord : s.Ordered) (run : Lower.FunctionRun f s (.error e) t)
    (free : (s.module.symbols.lookup f.name).isSome → (s.module.findFunction f.name).isSome) :
    s.module.report.diagnostics <+: t.module.report.diagnostics ∧ ∃ length,
      (Likeness.shift s.module.graph.values.size length t.module.report.diagnostics
        s.module.report.diagnostics).Level s.module.contexts t s := by
  cases run with
  | redefined old =>
    have shifted := Graph.Shifted.of_framed (.refl _) ord.consistent ord.consistent ord.contained
      fun _ _ => rfl
    exact ⟨prefix_append _ _, _, level_of_shifted ord.toSettled shifted rfl rfl rfl ord.idle ord.outside⟩
  | dropped unknown created lowered removing =>
    have restored := ord.restored created lowered removing
    have unbound : s.module.symbols.lookup f.name = none := by
      rw [← Option.not_isSome_iff_eq_none]
      intro lt
      rw [unknown] at free
      cases free lt
    obtain ⟨fn, symbols⟩ := restored.symbols
    rw [ScopeTable.remove_insertGlobal ord.flat unbound] at symbols
    have shifted := Graph.Shifted.of_framed restored.extension.framed ord.consistent
      restored.extension.consistent ord.contained restored.limits
    have ctx := congrArg List.tail restored.contexts
    exact ⟨restored.report, _, level_of_shifted ord.toSettled shifted restored.functions symbols ctx
      restored.idle rfl⟩

private theorem outcomes_without_failed {mid : Lowering} (ord : s.Ordered)
    (failed : (Lower.function f).run s = .ok (.error e, mid))
    (free : (s.module.symbols.lookup f.name).isSome → (s.module.findFunction f.name).isSome)
    (ran : mid.outcomes items = .ok (rs, t)) :
    ∃ without own later, s.outcomes items = .ok (rs, without) ∧
      mid.module.report.diagnostics = s.module.report.diagnostics ++ own ∧
      t.module.report.diagnostics = s.module.report.diagnostics ++ own ++ later ∧
      without.module.report.diagnostics = s.module.report.diagnostics ++ later := by
  obtain ⟨⟨own, reported⟩, length, level⟩ := level_of_failed ord (Lower.function_run failed) free
  obtain ⟨without, ran', level'⟩ := outcomes_matched (Likeness.shift_thorough _ _ _ _) level ran
  obtain ⟨later, left, right⟩ := level'.module.report
  exact ⟨without, own, later, ran', reported.symm, reported ▸ left, right⟩

end Lowering

/-- A function with a mistake does not influence the rest of the program, unless its name is that of a global
before it: the same becomes of all other items if the function is taken out, and the same is reported for
them in the same order. -/
theorem failing_function_leaves_others {name : String} {front back : List Item} {f : FuncDef} {e : LowerError}
    {before middle after : Lowering} (earlier : (Lowering.start name).program ⟨front⟩ = .ok before)
    (failed : (Lower.function f).run before = .ok (.error e, middle))
    (done : (Lowering.start name).program ⟨front ++ .func f :: back⟩ = .ok after)
    (free : (before.module.symbols.lookup f.name).isSome → (before.module.findFunction f.name).isSome) :
    ∃ without firsts lasts own later, firsts.length = front.length ∧
      (Lowering.start name).outcomes (front ++ .func f :: back) = .ok (firsts ++ .error e :: lasts, after) ∧
      (Lowering.start name).outcomes (front ++ back) = .ok (firsts ++ lasts, without) ∧
      (Lowering.start name).program ⟨front ++ back⟩ = .ok without ∧
      middle.module.report.diagnostics = before.module.report.diagnostics ++ own ∧
      after.module.report.diagnostics = before.module.report.diagnostics ++ own ++ later ∧
      without.module.report.diagnostics = before.module.report.diagnostics ++ later := by
  have ordered := (Lowering.ordered_start name).program earlier
  rw [Lowering.program_eq_outcomes] at earlier done
  obtain ⟨⟨firsts, reached⟩, first, same⟩ := map_eq_ok.1 earlier
  subst same
  obtain ⟨⟨results, final⟩, all, same⟩ := map_eq_ok.1 done
  subst same
  have entire := all
  rw [Lowering.outcomes_append] at all
  obtain ⟨_, first', all⟩ := bind_eq_ok.1 all
  cases first.symm.trans first'
  obtain ⟨⟨others, last⟩, second, joined⟩ := bind_eq_ok.1 all
  obtain ⟨⟨failure, state⟩, ran, rest⟩ := bind_eq_ok.1 second
  cases failed.symm.trans ran
  obtain ⟨⟨lasts, end'⟩, third, built⟩ := bind_eq_ok.1 rest
  cases built
  cases joined
  obtain ⟨without, own, later, third', reports⟩ := Lowering.outcomes_without_failed ordered failed free third
  have shorter : (Lowering.start name).outcomes (front ++ back) = .ok (firsts ++ lasts, without) := by
    rw [Lowering.outcomes_append]
    exact bind_eq_ok.2 ⟨_, first, bind_eq_ok.2 ⟨_, third', rfl⟩⟩
  refine ⟨without, firsts, lasts, own, later, Lowering.length_of_outcomes first, entire, shorter, ?_, reports⟩
  rw [Lowering.program_eq_outcomes, shorter]
  rfl

def callsMissing : FuncDef where
  name := "f"
  returnType := .int32
  params := []
  body := .compound [
    .expr (.ofBinary (.assign none) (.ofName "g" .int32) (.ofInt 2)) .unknown,
    .ret (some (.ofCall "missing" [] .int32)) .unknown] .unknown

def globalOne : Item := .global { name := "g", ty := .int32, initializer := some (.ofInt 1) }

def callerAndNamesake : List Item := [
  .func { name := "h", returnType := .int32, params := [], body := .ret (some (.ofCall "f" [] .int32)) .unknown },
  .func { name := "f", returnType := .int32, params := [], body := .ret (some (.ofName "g" .int32)) .unknown }]

theorem failing_function_leaves_namesake : ∃ (before middle after without : Lowering) (own later : List Diagnostic),
    (Lowering.start "unit").program ⟨[globalOne]⟩ = .ok before ∧
      (∃ e, (Lower.function callsMissing).run before = .ok (.error e, middle)) ∧
      (Lowering.start "unit").program ⟨[globalOne] ++ .func callsMissing :: callerAndNamesake⟩ = .ok after ∧
      before.module.symbols.lookup callsMissing.name = none ∧
      (Lowering.start "unit").program ⟨[globalOne] ++ callerAndNamesake⟩ = .ok without ∧
      middle.module.report.errorCount = 1 ∧ after.module.report.errorCount = 2 ∧
      middle.module.report.diagnostics = before.module.report.diagnostics ++ own ∧
      after.module.report.diagnostics = before.module.report.diagnostics ++ own ++ later ∧
      without.module.report.diagnostics = before.module.report.diagnostics ++ later := by
  obtain ⟨before, earlier, found⟩ := @ok_of_toOption_map _ _ _ ((Lowering.start "unit").program ⟨[globalOne]⟩)
    (fun before => ((before.module.symbols.lookup callsMissing.name).isSome,
      ((Lower.function callsMissing).run before).toOption.map fun pair =>
        (pair.1.toOption.isSome, pair.2.module.report.errorCount))) (false, some (false, 1)) (by decide +kernel)
  obtain ⟨unbound, failing⟩ := Prod.mk.inj found
  obtain ⟨⟨result, middle⟩, failed, found⟩ := ok_of_toOption_map failing
  obtain ⟨isError, mistakes⟩ := Prod.mk.inj found
  cases result with
  | ok value => cases isError
  | error e =>
    obtain ⟨after, done, count⟩ := @ok_of_toOption_map _ _ _
      ((Lowering.start "unit").program ⟨[globalOne] ++ .func callsMissing :: callerAndNamesake⟩)
      (fun after => after.module.report.errorCount) 2 (by decide +kernel)
    obtain ⟨without, _, _, own, later, _, _, _, shorter, reports⟩ :=
      failing_function_leaves_others earlier failed done (fun bound => by rw [unbound] at bound; cases bound)
    exact ⟨before, middle, after, without, own, later, earlier, ⟨e, failed⟩, done,
      Option.not_isSome_iff_eq_none.1 (by rw [unbound]; decide), shorter, mistakes, count, reports⟩

def breaksOff : FuncDef where
  name := "g"
  returnType := .int32
  params := []
  body := .compound [.breakLoop .unknown] .unknown

def readsGlobal : Item :=
  .func { name := "h", returnType := .int32, params := [], body := .ret (some (.ofName "g" .int32)) .unknown }

/-- The name of a global is lost with a function of the same name, and the function after it has a mistake that
it would not have otherwise. -/
theorem global_lost_with_failing_function : ∃ middle after without : Lowering,
    (Lowering.start "unit").program ⟨[globalOne] ++ [.func breaksOff]⟩ = .ok middle ∧
      (Lowering.start "unit").program ⟨[globalOne] ++ .func breaksOff :: [readsGlobal]⟩ = .ok after ∧
      (Lowering.start "unit").program ⟨[globalOne] ++ [readsGlobal]⟩ = .ok without ∧
      middle.module.report.errorCount = 1 ∧ after.module.report.errorCount = 2 ∧
      without.module.report.errorCount = 0 := by
  have counted : ∀ items count, ((Lowering.start "unit").program ⟨items⟩).toOption.map
      (·.module.report.errorCount) = some count →
        ∃ last, (Lowering.start "unit").program ⟨items⟩ = .ok last ∧ last.module.report.errorCount = count :=
    fun _ _ => ok_of_toOption_map
  obtain ⟨middle, first, one⟩ := counted ([globalOne] ++ [.func breaksOff]) 1 (by decide +kernel)
  obtain ⟨after, all, two⟩ := counted ([globalOne] ++ .func breaksOff :: [readsGlobal]) 2 (by decide +kernel)
  obtain ⟨without, shorter, none⟩ := counted ([globalOne] ++ [readsGlobal]) 0 (by decide +kernel)
  exact ⟨middle, after, without, first, all, shorter, one, two, none⟩

end Midend
