import Mathlib.Data.Option.Basic
import Mathlib.Data.List.Basic

/-! Finite runs of a partial step function. An action that is not enabled in
a state has no successor there, so a run exists only along enabled actions.
Nothing here depends on what the states and the actions are. -/
namespace Machine

universe u v w
variable {State : Type u} {Action : Type v}

/-- Take the actions in order, each in the state the previous ones reached. -/
def run (step : State → Action → Option State) : State → List Action → Option State
  | s, [] => some s
  | s, a :: rest => (step s a).bind fun t => run step t rest

variable {step : State → Action → Option State}

@[simp] theorem run_nil (s : State) : run step s [] = some s := rfl

theorem run_cons_eq_some {s t : State} {a : Action} {rest : List Action} :
    run step s (a :: rest) = some t ↔ ∃ m, step s a = some m ∧ run step m rest = some t := by
  rw [run, Option.bind_eq_some_iff]

theorem run_append_eq_some {s t : State} {first second : List Action} :
    run step s (first ++ second) = some t ↔
      ∃ m, run step s first = some m ∧ run step m second = some t := by
  induction first generalizing s with
  | nil => simp
  | cons a rest ih =>
    simp only [List.cons_append, run_cons_eq_some, ih]
    constructor
    · rintro ⟨m, hStep, n, hRest, hSecond⟩
      exact ⟨n, ⟨m, hStep, hRest⟩, hSecond⟩
    · rintro ⟨n, ⟨m, hStep, hRest⟩, hSecond⟩
      exact ⟨m, hStep, n, hRest, hSecond⟩

/-- Every action of the list is taken in a state that meets the guard. States that
no enabled action reaches impose nothing. -/
def Guarded (step : State → Action → Option State) (guard : State → Action → Prop) :
    State → List Action → Prop
  | _, [] => True
  | s, a :: rest => guard s a ∧ ∀ t, step s a = some t → Guarded step guard t rest

instance decidableGuarded {guard : State → Action → Prop} [∀ s a, Decidable (guard s a)] :
    (s : State) → (actions : List Action) → Decidable (Guarded step guard s actions)
  | _, [] => inferInstanceAs (Decidable True)
  | s, a :: rest =>
    haveI : DecidablePred fun t => Guarded step guard t rest := fun t => decidableGuarded t rest
    inferInstanceAs (Decidable (guard s a ∧ ∀ t ∈ step s a, Guarded step guard t rest))

variable {actions : List Action}

theorem guarded_of_forall {guard : Action → Prop} {s : State}
    (hGuard : ∀ a ∈ actions, guard a) : Guarded step (fun _ a => guard a) s actions := by
  induction actions generalizing s with
  | nil => trivial
  | cons a rest ih =>
    exact ⟨hGuard a (List.mem_cons_self ..), fun _ _ =>
      ih fun b hMem => hGuard b (List.mem_cons_of_mem _ hMem)⟩

theorem Guarded.mono {guard weaker : State → Action → Prop}
    (hWeaker : ∀ s a, guard s a → weaker s a) {s : State}
    (hGuarded : Guarded step guard s actions) : Guarded step weaker s actions := by
  induction actions generalizing s with
  | nil => trivial
  | cons a rest ih =>
    obtain ⟨hGuard, hLater⟩ := hGuarded
    exact ⟨hWeaker s a hGuard, fun t hStep => ih (hLater t hStep)⟩

/-- A property that every guarded step keeps holds at the end of every
guarded run that starts in it. -/
theorem invariant_of_guarded {guard : State → Action → Prop} {Inv : State → Prop}
    (hStep : ∀ s a t, Inv s → guard s a → step s a = some t → Inv t)
    {s t : State} (hInv : Inv s)
    (hGuarded : Guarded step guard s actions) (hRun : run step s actions = some t) :
    Inv t := by
  induction actions generalizing s with
  | nil =>
    cases hRun
    exact hInv
  | cons a rest ih =>
    obtain ⟨m, hOne, hRest⟩ := run_cons_eq_some.mp hRun
    obtain ⟨hGuard, hLater⟩ := hGuarded
    exact ih (hStep s a m hInv hGuard hOne) (hLater m hOne) hRest

/-- The unconditional case: a property that every step keeps. -/
theorem invariant_of_run {Inv : State → Prop}
    (hStep : ∀ s a t, Inv s → step s a = some t → Inv t)
    {s t : State} (hInv : Inv s)
    (hRun : run step s actions = some t) : Inv t :=
  invariant_of_guarded (fun s a t hInv _ => hStep s a t hInv) hInv
    (@guarded_of_forall _ _ _ _ (fun _ => True) _ fun _ _ => trivial) hRun

/-- A run on a fixed list of actions can be computed; what is seen at its end
is then used for what cannot be. -/
theorem exists_run {s : State} {Claim : State → Prop} (Seen : State → Prop)
    (hEnd : ∃ t ∈ run step s actions, Seen t)
    (hClaim : ∀ t, run step s actions = some t → Seen t → Claim t) :
    ∃ t, run step s actions = some t ∧ Claim t := by
  obtain ⟨t, hRun, hSeen⟩ := hEnd
  exact ⟨t, hRun, hClaim t hRun hSeen⟩

/-- A component whose every change in the larger system is a step of its own
has only runs of its own there. -/
theorem exists_run_of_component {Part : Type w} {Move : Type v} (part : State → Part)
    {move : Part → Move → Option Part}
    (hStep : ∀ s a t, step s a = some t → part t = part s ∨ ∃ b, move (part s) b = some (part t))
    {s t : State} (hRun : run step s actions = some t) :
    ∃ moves, run move (part s) moves = some (part t) := by
  induction actions generalizing s with
  | nil =>
    cases hRun
    exact ⟨[], rfl⟩
  | cons a rest ih =>
    obtain ⟨m, hOne, hRest⟩ := run_cons_eq_some.mp hRun
    obtain ⟨moves, hMoves⟩ := ih hRest
    rcases hStep s a m hOne with hSame | ⟨b, hMove⟩
    · rw [← hSame]
      exact ⟨moves, hMoves⟩
    · exact ⟨b :: moves, run_cons_eq_some.mpr ⟨_, hMove, hMoves⟩⟩

end Machine

/-! Histories as lists, oldest entry first, and properties that each entry has
to satisfy with respect to the entries before it. -/
namespace History

open List

universe u
variable {α : Type u} {P Q : List α → α → Prop} {log : List α}

/-- Every entry satisfies `P` together with the history before it. -/
def EachAfter (P : List α → α → Prop) (log : List α) : Prop :=
  ∀ pre entry post, log = pre ++ entry :: post → P pre entry

theorem eachAfter_nil : EachAfter P [] := by
  intro pre entry post hSplit
  exact absurd hSplit.symm (append_ne_nil_of_right_ne_nil _ (cons_ne_nil _ _))

theorem EachAfter.snoc (h : EachAfter P log) {entry : α} (hEntry : P log entry) :
    EachAfter P (log ++ [entry]) := by
  intro pre e post hSplit
  rcases eq_nil_or_concat post with rfl | ⟨post', last, rfl⟩
  · obtain ⟨rfl, hSame⟩ := append_inj' hSplit rfl
    cases hSame
    exact hEntry
  · rw [concat_eq_append, ← cons_append, ← append_assoc] at hSplit
    obtain ⟨hLog, -⟩ := append_inj' hSplit rfl
    exact h pre e post' hLog

/-- The property may change with what is known, as long as it still holds of
the entries there are. -/
theorem EachAfter.imp (h : EachAfter P log) (hImp : ∀ pre entry, entry ∈ log → P pre entry →
    Q pre entry) : EachAfter Q log := by
  intro pre entry post hSplit
  refine hImp pre entry ?_ (h pre entry post hSplit)
  rw [hSplit]
  exact mem_append_right _ (mem_cons_self ..)

end History
