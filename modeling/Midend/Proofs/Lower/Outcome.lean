import Midend.Proofs.Lower.Pieces
import Midend.Proofs.Module.Progress

/-! What holds after a step of lowering. A step ends with a value or with a mistake, and a
mistake leaves the state as far as it came. -/
namespace Midend.Lower
variable {α β : Type} {s : Lowering} {broken broken' : Lowering → Prop} {done done' : α → Lowering → Prop}

/-- Every end of a computation is as it should be: what holds after a value was found and
what holds after a mistake. -/
def Ends (x : Lower α) (s : Lowering) (broken : Lowering → Prop) (done : α → Lowering → Prop) : Prop :=
  ∀ result after, x.run s = .ok (result, after) →
    match result with
    | .ok value => done value after
    | .error _ => broken after

namespace Ends
variable {x : Lower α} {last : β → Lowering → Prop} {e : LowerError}

theorem mono (ends : Ends x s broken done) (worse : ∀ t, broken t → broken' t)
    (better : ∀ val t, done val t → done' val t) : Ends x s broken' done' := by
  intro res t ran
  have path := ends res t ran
  cases res with
  | ok val => exact better val t path
  | error e => exact worse t path

theorem pure {val : α} (h : done val s) : Ends (Pure.pure val : Lower α) s broken done := by
  intro res t ran
  cases ran
  exact h

/-- How two actions end one after the other. -/
theorem bind {next : α → Lower β} (first : Ends x s broken done)
    (second : ∀ val t, done val t → Ends (next val) t broken last) :
    Ends (x >>= next) s broken last := by
  intro res t ran
  have split : (x.run s >>= fun pair => match pair.1 with
      | .ok val => (next val).run pair.2
      | .error e => Except.ok (.error e, pair.2)) = .ok (res, t) := by
    rw [← ran]
    show _ = (x.run s >>= fun pair => _)
    congr 1
    funext pair
    obtain ⟨hit, mid⟩ := pair
    cases hit <;> rfl
  obtain ⟨⟨hit, mid⟩, left, right⟩ := bind_eq_ok.1 split
  have path := first hit mid left
  cases hit with
  | ok val => exact second val mid path res t right
  | error e =>
    cases right
    exact path

theorem map {f : α → β} (ends : Ends x s broken fun val t => last (f val) t) :
    Ends (f <$> x) s broken last := by
  rw [map_eq_pure_bind]
  exact ends.bind fun _ _ h => pure h

theorem build {action : Builder α}
    (each : ∀ val module, action s.module = .ok (val, module) → done val { s with module }) :
    Ends (Lower.build action) s broken done := by
  intro res t ran
  have split : (action s.module >>= fun pair => Except.ok (Except.ok pair.1, { s with module := pair.2 })) =
      (.ok (res, t) : Except Fault (Except LowerError α × Lowering)) := ran
  obtain ⟨⟨val, module⟩, acted, built⟩ := bind_eq_ok.1 split
  cases built
  exact each val module acted

theorem ask {read : Graph → Except Fault α} : Ends (Lower.build (Builder.ask read)) s broken fun val t =>
      read s.module.graph = .ok val ∧ t = s :=
  build fun val m done => by
    obtain ⟨hit, rfl⟩ := Builder.ask_ok.1 done
    exact ⟨hit, rfl⟩

theorem get {next : Lowering → Lower β} (ends : Ends (next s) s broken last) :
    Ends (MonadState.get >>= next) s broken last := by
  have first : Ends MonadState.get s broken fun st t => st = s ∧ t = s := by
    intro res t ran
    cases ran
    exact ⟨rfl, rfl⟩
  refine first.bind ?_
  rintro _ _ ⟨rfl, rfl⟩
  exact ends

theorem modified {f : Lowering → Lowering} {done : PUnit → Lowering → Prop} (h : done ⟨⟩ (f s)) :
    Ends (modify f) s broken done := by
  intro res t ran
  cases ran
  exact h

theorem fail (h : ∀ report, broken { s with module.report := report }) :
    Ends (Lower.fail e : Lower α) s broken done := by
  intro res t ran
  cases ran
  exact h _

theorem between {pre t : Lowering → Lowering} (ends : Ends x (pre s) (fun st => broken (t st))
      (fun val st => done val (t st))) : Ends (Lower.between pre t x) s broken done := by
  intro res last ran
  have split : (x.run (pre s) >>= fun pair => Except.ok (pair.1, t pair.2)) =
      (.ok (res, last) : Except Fault (Except LowerError α × Lowering)) := ran
  obtain ⟨⟨hit, st⟩, acted, upd⟩ := bind_eq_ok.1 split
  cases upd
  exact ends hit st acted

theorem thrown (h : broken s) : Ends (throw e : Lower α) s broken done := by
  intro res t ran
  cases ran
  exact h

end Ends

structure Finishes (safe : Prop) (x : Lower α) (s : Lowering) (broken : Lowering → Prop)
    (done : α → Lowering → Prop) : Prop where
  runs : safe → ∃ result after, x.run s = .ok (result, after)
  ends : Ends x s broken done

namespace Finishes
variable {safe : Prop} {x : Lower α} {val : α} {last : β → Lowering → Prop} {next : α → Lower β}
  {action : Builder α} {e : LowerError}

theorem mono (finishes : Finishes safe x s broken done) (worse : ∀ t, broken t → broken' t)
    (better : ∀ val t, done val t → done' val t) : Finishes safe x s broken' done' :=
  ⟨finishes.runs, finishes.ends.mono worse better⟩

theorem pure (h : done val s) : Finishes safe (Pure.pure val) s broken done :=
  ⟨fun _ => ⟨_, _, rfl⟩, .pure h⟩

theorem bind (first : Finishes safe x s broken done)
    (second : ∀ val t, done val t → Finishes safe (next val) t broken last) :
    Finishes safe (x >>= next) s broken last := by
  refine ⟨fun isSafe => ?_, first.ends.bind fun val t h => (second val t h).ends⟩
  obtain ⟨res, mid, ran⟩ := first.runs isSafe
  have path := first.ends res mid ran
  cases res with
  | ok val =>
    obtain ⟨res, t, ran'⟩ := (second val mid path).runs isSafe
    exact ⟨res, t, bind_eq_ok.2 ⟨(.ok val, mid), ran, ran'⟩⟩
  | error e => exact ⟨.error e, mid, bind_eq_ok.2 ⟨(.error e, mid), ran, rfl⟩⟩

theorem build (runs : Builder.Runs action s.module fun val module => done val { s with module }) :
    Finishes safe (Lower.build action) s broken done := by
  obtain ⟨val, module, acted, h⟩ := runs
  refine ⟨fun _ => ⟨.ok val, { s with module }, bind_eq_ok.2 ⟨(val, module), acted, rfl⟩⟩, .build ?_⟩
  intro value' module' acted'
  cases acted.symm.trans acted'
  exact h

/-- What holds of every run holds of the run that there is, with what is known of that one. -/
theorem of_ends {h : α → Module → Prop} (runs : safe → Builder.Runs action s.module h)
    (ends : Ends (Lower.build action) s broken done) :
    Finishes safe (Lower.build action) s broken fun val t => done val t ∧ (safe → h val t.module) := by
  have ran : ∀ {val module}, action s.module = .ok (val, module) →
      (Lower.build action).run s = .ok (.ok val, { s with module }) := fun acted =>
    bind_eq_ok.2 ⟨(_, _), acted, rfl⟩
  refine ⟨fun isSafe => ?_, .build fun val module acted => ⟨ends _ _ (ran acted), fun isSafe => ?_⟩⟩
  · obtain ⟨val, module, acted, _⟩ := runs isSafe
    exact ⟨.ok val, _, ran acted⟩
  · obtain ⟨_, _, acted', h⟩ := runs isSafe
    cases acted.symm.trans acted'
    exact h

theorem step {module : Module} (acted : action s.module = .ok (val, module))
    (finishes : Finishes safe (next val) { s with module } broken last) :
    Finishes safe (Lower.build action >>= next) s broken last := by
  have built : Finishes safe (Lower.build action) s broken fun hit t =>
      hit = val ∧ t = { s with module } :=
    .build ⟨val, module, acted, rfl, rfl⟩
  refine built.bind ?_
  intro _ _ ⟨eq, same'⟩
  rw [eq, same']
  exact finishes

theorem ask {read : Graph → Except Fault α} (hit : read s.module.graph = .ok val)
    (finishes : Finishes safe (next val) s broken last) :
    Finishes safe (Lower.build (Builder.ask read) >>= next) s broken last :=
  .step (Builder.ask_ok.2 ⟨hit, rfl⟩) finishes

theorem get {next : Lowering → Lower β} (finishes : Finishes safe (next s) s broken last) :
    Finishes safe (MonadState.get >>= next) s broken last :=
  ⟨finishes.runs, .get finishes.ends⟩

theorem fail (h : ∀ report, broken { s with module.report := report }) :
    Finishes safe (Lower.fail e : Lower α) s broken done :=
  ⟨fun _ => ⟨_, _, rfl⟩, .fail h⟩

theorem between {pre t : Lowering → Lowering} (finishes : Finishes safe x (pre s)
      (fun st => broken (t st)) (fun val st => done val (t st))) :
    Finishes safe (Lower.between pre t x) s broken done := by
  refine ⟨fun isSafe => ?_, .between finishes.ends⟩
  obtain ⟨res, last, ran⟩ := finishes.runs isSafe
  exact ⟨res, t last, bind_eq_ok.2 ⟨(res, last), ran, rfl⟩⟩

theorem modified {f : Lowering → Lowering} {next : PUnit → Lower β}
    (finishes : Finishes safe (next ⟨⟩) (f s) broken last) : Finishes safe (modify f >>= next) s broken last := by
  have upd : Ends (modify f) s broken fun _ t => t = f s := .modified rfl
  exact ⟨finishes.runs, upd.bind fun _ _ eq => eq ▸ finishes.ends⟩

theorem thrown (h : broken s) : Finishes safe (throw e : Lower α) s broken done :=
  ⟨fun _ => ⟨_, _, rfl⟩, .thrown h⟩

theorem caught {next : Except LowerError α → Lower β} (runs : ∃ res t, x.run s = .ok (res, t))
    (tl : ∀ res t, x.run s = .ok (res, t) → Finishes safe (next res) t broken last) :
    Finishes safe (ExceptT.lift x.run >>= next) s broken last := by
  obtain ⟨hit, mid, ran⟩ := runs
  have lifted : Finishes safe (ExceptT.lift x.run) s broken fun res t => res = hit ∧ t = mid := by
    refine ⟨fun _ => ⟨.ok hit, mid, bind_eq_ok.2 ⟨(hit, mid), ran, rfl⟩⟩, ?_⟩
    intro res t acted
    obtain ⟨⟨found', middle'⟩, ran', eq⟩ := bind_eq_ok.1 (show (x.run s >>= _) = _ from acted)
    cases ran.symm.trans ran'
    cases eq
    exact ⟨rfl, rfl⟩
  refine lifted.bind ?_
  intro _ _ ⟨eq, same'⟩
  rw [eq, same']
  exact tl hit mid ran

end Finishes
end Midend.Lower
