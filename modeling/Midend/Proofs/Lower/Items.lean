import Midend.Proofs.Lower.Outcome

/-! How the lowering of a function goes: the steps that were taken, from the state in which they
ended. -/
namespace Midend

namespace Lowering

def entering (s : Lowering) (name : String) (func : ValueId) (module : Module) : Lowering where
  module := { module with symbols := (module.symbols.insertGlobal name func).push }
  loops := s.loops

def left (s : Lowering) : Module :=
  { s.module with symbols := s.module.symbols.pop, current := none, insertPoint := none }

end Lowering

namespace Lower
variable {α β : Type} {s t : Lowering} {res : Except LowerError Unit}
variable {next : α → Lower β} {x : Lower α}

theorem bind_run {res : Except LowerError β} (ran : (x >>= next).run s = .ok (res, t)) :
    (∃ val mid, x.run s = .ok (.ok val, mid) ∧ (next val).run mid = .ok (res, t)) ∨
      ∃ e, x.run s = .ok (.error e, t) ∧ res = .error e := by
  obtain ⟨⟨hit, mid⟩, first, second⟩ := bind_eq_ok.1 (show (x.run s >>= _) = _ from ran)
  cases hit with
  | ok val => exact .inl ⟨val, mid, first, second⟩
  | error e =>
    cases second
    exact .inr ⟨e, first, rfl⟩

theorem build_bind_run {action : Builder α} {res : Except LowerError β}
    (ran : (build action >>= next).run s = .ok (res, t)) :
    ∃ val module, action s.module = .ok (val, module) ∧
      (next val).run { s with module } = .ok (res, t) := by
  rcases bind_run ran with ⟨val, mid, first, second⟩ | ⟨e, first, _⟩
  · obtain ⟨⟨value', module⟩, acted, built⟩ := bind_eq_ok.1 (show (action s.module >>= _) = _ from first)
    cases built
    exact ⟨val, module, acted, second⟩
  · obtain ⟨⟨value', module⟩, acted, built⟩ := bind_eq_ok.1 (show (action s.module >>= _) = _ from first)
    cases built

theorem between_run {leave enter : Lowering → Lowering} {res : Except LowerError α}
    (ran : (between enter leave x).run s = .ok (res, t)) :
    ∃ mid, x.run (enter s) = .ok (res, mid) ∧ t = leave mid := by
  obtain ⟨⟨hit, mid⟩, acted, left⟩ := bind_eq_ok.1 (show (x.run _ >>= _) = _ from ran)
  cases left
  exact ⟨mid, acted, rfl⟩

theorem lift_bind_run {next : Except LowerError α → Lower β} {res : Except LowerError β}
    (ran : (ExceptT.lift x.run >>= next).run s = .ok (res, t)) :
    ∃ hit mid, x.run s = .ok (hit, mid) ∧ (next hit).run mid = .ok (res, t) := by
  obtain ⟨⟨lifted, mid⟩, first, second⟩ := bind_eq_ok.1 (show (StateT.run (ExceptT.run (ExceptT.lift x.run)) s >>= _) = _ from ran)
  obtain ⟨⟨hit, st⟩, acted, wrapped⟩ := bind_eq_ok.1 (show (x.run s >>= _) = _ from first)
  cases wrapped
  exact ⟨hit, mid, acted, second⟩

theorem get_bind_run {next : Lowering → Lower α} : (MonadState.get >>= next).run s = (next s).run s := rfl

inductive FunctionRun (f : FuncDef) (s : Lowering) : Except LowerError Unit → Lowering → Prop
  | redefined {d : Diagnostic} (known : (s.module.findFunction f.name).isSome) :
      FunctionRun f s (.error (.functionRedefined f.name f.location)) { s with module.report := s.module.report.add d }
  | kept {func : ValueId} {module : Module} {final : Lowering} (unknown : s.module.findFunction f.name = none)
      (created : Builder.createFunction f.name f.ty (f.params.map (·.name))
        { s.module with contexts := f.location :: s.module.contexts } = .ok (func, module))
      (lowered : (functionBody func f).run (s.entering f.name func module) = .ok (.ok (), final)) :
      FunctionRun f s (.ok ()) ⟨{ final.left with contexts := final.module.contexts.tail }, []⟩
  | dropped {func : ValueId} {module module' : Module} {final : Lowering} {e : LowerError}
      (unknown : s.module.findFunction f.name = none)
      (created : Builder.createFunction f.name f.ty (f.params.map (·.name))
        { s.module with contexts := f.location :: s.module.contexts } = .ok (func, module))
      (lowered : (functionBody func f).run (s.entering f.name func module) = .ok (.error e, final))
      (removed : Builder.removeFunction func final.left = .ok ((), module')) :
      FunctionRun f s (.error e) ⟨{ module' with contexts := module'.contexts.tail }, []⟩

/-- The ways in which lowering a function can end. -/
theorem function_run {f : FuncDef} (ran : (function f).run s = .ok (res, t)) : FunctionRun f s res t := by
  unfold function withContext at ran
  obtain ⟨mid, entered, eq⟩ := between_run ran
  subst eq
  clear ran
  rw [get_bind_run] at entered
  dsimp only at entered
  split at entered
  next known =>
    cases entered
    exact .redefined known
  next unknown =>
    have unknown : s.module.findFunction f.name = none := Option.not_isSome_iff_eq_none.1 unknown
    obtain ⟨fn, module, created, entered⟩ := build_bind_run entered
    obtain ⟨_, module1, declared, entered⟩ := build_bind_run entered
    obtain rfl := Builder.modify_ok.1 declared
    obtain ⟨hit, middle2, inScope, entered⟩ := lift_bind_run entered
    unfold withScope at inScope
    obtain ⟨final, lowered, eq⟩ := between_run inScope
    subst eq
    obtain ⟨_, module3, ended, entered⟩ := build_bind_run entered
    obtain rfl := Builder.modify_ok.1 ended
    cases hit with
    | ok val =>
      cases entered
      exact .kept unknown created lowered
    | error e =>
      obtain ⟨_, module4, gone, thrown⟩ := build_bind_run (show ((build (Builder.removeFunction fn) >>= fun _ =>
        throw e : Lower Unit)).run ⟨final.left, []⟩ = _ from entered)
      cases thrown
      exact .dropped unknown created lowered gone

end Lower
end Midend
