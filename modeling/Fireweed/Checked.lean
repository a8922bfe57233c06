import Fireweed.BTree

/-!
# Checked computations

Rules for loops in `Except`: what a successful bind, loop or collection says
about its parts, and the invariant, totality and simulation rules for a loop
that threads a state and stops at the first error.
-/

namespace Checked

open List

variable {ε α β σ τ : Type}

variable {γ : Type} {x : Except ε α} {l : List α} {f : σ → α → Except ε σ}
  {P : List α → σ → Prop} {r : σ → τ → Prop} {s : σ}

theorem bind_eq_ok {f : α → Except ε β} {b : β} :
    (x >>= f) = .ok b ↔ ∃ a, x = .ok a ∧ f a = .ok b := by
  cases x with
  | error e => simp [bind, Except.bind]
  | ok a => simp [bind, Except.bind]

@[simp] theorem ok_bind (a : α) (f : α → Except ε β) : ((Except.ok a : Except ε α) >>= f) = f a :=
  rfl

@[simp] theorem error_bind (e : ε) (f : α → Except ε β) :
    ((Except.error e : Except ε α) >>= f) = .error e :=
  rfl

theorem map_eq_bind (x : Except ε α) (f : α → β) : x.map f = x >>= fun a => .ok (f a) := by
  cases x <;> rfl

theorem map_map (x : Except ε α) (f : α → β) (g : β → γ) :
    (x.map f).map g = x.map fun a => g (f a) := by
  cases x <;> rfl

theorem except_map_bind (x : Except ε α) (f : α → Except ε β) (g : β → γ) :
    (x >>= f).map g = x >>= fun a => (f a).map g := by
  cases x <;> rfl

theorem map_eq_ok {f : α → β} {b : β} : x.map f = .ok b ↔ ∃ a, x = .ok a ∧ f a = b := by
  cases x <;> simp [Except.map]

theorem map_eq_error {f : α → β} {e : ε} : x.map f = .error e ↔ x = .error e := by
  cases x <;> simp [Except.map]

theorem toOption_eq_some {a : α} : x.toOption = some a ↔ x = .ok a := by
  cases x <;> simp [Except.toOption]

/-- Return an error when a condition holds. -/
def rejectIf (bad : Bool) (e : ε) : Except ε Unit := if bad then .error e else .ok ()

@[simp] theorem rejectIf_eq_ok {bad : Bool} {e : ε} {u : Unit} :
    rejectIf bad e = .ok u ↔ bad = false := by
  cases bad <;> simp [rejectIf]

/-- A check that succeeds is followed by the rest. -/
theorem check_bind_eq_ok {x : Except ε Unit} {f : Unit → Except ε β} {b : β} :
    (x >>= f) = .ok b ↔ x = .ok () ∧ f () = .ok b := by
  rw [bind_eq_ok]
  constructor
  · rintro ⟨u, checked, rest⟩
    exact ⟨checked, rest⟩
  · rintro ⟨checked, rest⟩
    exact ⟨(), checked, rest⟩

/-- A loop of checks succeeds when every check does. -/
theorem forM_eq_ok (check : α → Except ε Unit) (l : List α) :
    forM l check = .ok () ↔ ∀ a ∈ l, check a = .ok () := by
  induction l with
  | nil => simp [pure, Except.pure]
  | cons a rest ih =>
    cases here : check a with
    | error e => simp [here]
    | ok u => simp [here, ih]

/-- Collecting succeeds with the list of the elementwise results. -/
theorem mapM_eq_ok (f : α → Except ε β) (l : List α) (r : List β) :
    l.mapM f = .ok r ↔ Forall₂ (fun a b => f a = .ok b) l r := by
  induction l generalizing r with
  | nil => cases r <;> simp [pure, Except.pure]
  | cons a rest ih =>
    rw [mapM_cons, bind_eq_ok]
    constructor
    · rintro ⟨b, here, tail⟩
      obtain ⟨bs, collected, result⟩ := bind_eq_ok.mp tail
      cases result
      exact .cons here ((ih bs).mp collected)
    · rintro (_ | ⟨here, tail⟩)
      exact ⟨_, here, bind_eq_ok.mpr ⟨_, (ih _).mpr tail, rfl⟩⟩

theorem mapM_ok_of_forall (f : α → Except ε β) (g : α → β) (l : List α)
    (succeeds : ∀ a ∈ l, f a = .ok (g a)) : l.mapM f = .ok (l.map g) := by
  rw [mapM_eq_ok, forall₂_map_right_iff, forall₂_same]
  exact succeeds

theorem mapM_total {f : α → Except ε β} (succeeds : ∀ a ∈ l, ∃ b, f a = .ok b) :
    ∃ r, l.mapM f = .ok r := by
  induction l with
  | nil => exact ⟨[], rfl⟩
  | cons a rest ih =>
    obtain ⟨b, here⟩ := succeeds a mem_cons_self
    obtain ⟨r, tail⟩ := ih fun c member => succeeds c (mem_cons_of_mem a member)
    exact ⟨b :: r, by rw [mapM_cons, here, tail]; rfl⟩

theorem mapM_congr {f g : α → Except ε β} (same : ∀ a ∈ l, f a = g a) : l.mapM f = l.mapM g := by
  induction l with
  | nil => rfl
  | cons a rest ih =>
    rw [mapM_cons, mapM_cons, same a mem_cons_self,
      ih fun b member => same b (mem_cons_of_mem a member)]

/-- The invariant rule: `P seen s` is indexed by the elements already consumed. -/
theorem foldlM_invariant {t : σ} (start : P [] s)
    (step : ∀ seen a s s', P seen s → f s a = .ok s' → P (seen ++ [a]) s')
    (run : l.foldlM f s = .ok t) : P l t := by
  suffices general : ∀ seen s, P seen s → l.foldlM f s = .ok t → P (seen ++ l) t by
    simpa using general [] s start run
  clear run start
  induction l with
  | nil =>
    intro seen s holds run
    cases run
    simpa using holds
  | cons a rest ih =>
    intro seen s holds run
    rw [foldlM_cons] at run
    obtain ⟨s', here, later⟩ := bind_eq_ok.mp run
    simpa using ih (seen ++ [a]) s' (step seen a s s' holds here) later

theorem forall_mem_snoc {p : α → Prop} (earlier : ∀ a ∈ l, p a) {a : α} (last : p a) :
    ∀ b ∈ l ++ [a], p b := by
  rw [forall_mem_append, forall_mem_singleton]
  exact ⟨earlier, last⟩

/-- Every element of a successful loop had a successful step. -/
theorem foldlM_each {t : σ} (run : l.foldlM f s = .ok t) (a : α) (member : a ∈ l) :
    ∃ s s', f s a = .ok s' :=
  foldlM_invariant (P := fun seen _ => ∀ a ∈ seen, ∃ s s', f s a = .ok s') (by simp)
    (fun _ _ s s' holds here => forall_mem_snoc holds ⟨s, s', here⟩) run a member

/-- The totality rule: under an invariant that makes each step succeed, the loop succeeds. -/
theorem foldlM_total (start : P [] s) (step : ∀ seen a rest s, l = seen ++ a :: rest → P seen s →
      ∃ s', f s a = .ok s' ∧ P (seen ++ [a]) s') : ∃ t, l.foldlM f s = .ok t ∧ P l t := by
  suffices general : ∀ seen rest s, l = seen ++ rest → P seen s →
      ∃ t, rest.foldlM f s = .ok t ∧ P (seen ++ rest) t by
    simpa using general [] l s rfl start
  intro seen rest
  induction rest generalizing seen with
  | nil => exact fun s _ holds => ⟨s, rfl, by simpa using holds⟩
  | cons a rest ih =>
    intro s split holds
    obtain ⟨s', here, next⟩ := step seen a rest s split holds
    obtain ⟨t, run, last⟩ := ih (seen ++ [a]) s' (by simpa using split) next
    exact ⟨t, by simpa [here] using run, by simpa using last⟩

/-- A loop that repeats every successful step of another repeats its success. -/
theorem foldlM_ok_of_steps {g : σ → α → Except ε σ} {t : σ}
    (step : ∀ a ∈ l, ∀ s s', f s a = .ok s' → g s a = .ok s') (run : l.foldlM f s = .ok t) :
    l.foldlM g s = .ok t := by
  induction l generalizing s with
  | nil => exact run
  | cons a rest ih =>
    obtain ⟨s', here, later⟩ := bind_eq_ok.mp (foldlM_cons.symm.trans run)
    rw [foldlM_cons, step a mem_cons_self s s' here]
    exact ih (fun b member => step b (mem_cons_of_mem a member)) later

theorem foldlM_congr {g : σ → α → Except ε σ} (step : ∀ a ∈ l, ∀ s, f s a = g s a) (s : σ) :
    l.foldlM f s = l.foldlM g s := by
  induction l generalizing s with
  | nil => rfl
  | cons a rest ih =>
    rw [foldlM_cons, foldlM_cons, step a mem_cons_self s]
    exact congrArg _ (funext (ih fun b member => step b (mem_cons_of_mem a member)))

/-- A loop over related elements that repeats every successful step repeats the success. -/
theorem foldlM_forall₂ {g : τ → β → Except ε τ} {R : α → β → Prop} {s' : σ} {t : τ} {m : List β}
    (related : Forall₂ R l m) (start : r s t)
    (step : ∀ a b s t s', R a b → r s t → f s a = .ok s' → ∃ t', g t b = .ok t' ∧ r s' t')
    (run : l.foldlM f s = .ok s') : ∃ t', m.foldlM g t = .ok t' ∧ r s' t' := by
  induction related generalizing s t with
  | nil =>
    cases run
    exact ⟨t, rfl, start⟩
  | cons head _ ih =>
    obtain ⟨next, here, later⟩ := bind_eq_ok.mp (foldlM_cons.symm.trans run)
    obtain ⟨next', here', related⟩ := step _ _ _ _ _ head start here
    rw [foldlM_cons, here']
    exact ih related later

/-- Two outcomes agree: both fail with one error, or both succeed with related values. -/
def Agree (r : α → β → Prop) : Except ε α → Except ε β → Prop
  | .error e, .error e' => e = e'
  | .ok a, .ok b => r a b
  | _, _ => False

/-- Agreement after a common first step. -/
theorem Agree.same_bind {r : β → γ → Prop} (x : Except ε α) {f : α → Except ε β}
    {g : α → Except ε γ} (rest : ∀ a, x = .ok a → Agree r (f a) (g a)) :
    Agree r (x >>= f) (x >>= g) := by
  cases x with
  | error e => exact rfl
  | ok a => exact rest a rfl

theorem Agree.map_left {r : γ → β → Prop} {y : Except ε β} {f : α → γ}
    (agree : Agree (fun a b => r (f a) b) x y) : Agree r (x.map f) y := by
  cases x <;> cases y <;> exact agree

theorem Agree.map_eq {r : α → β → Prop} {y : Except ε β} {f : α → γ} {g : β → γ}
    (agree : Agree r x y) (same : ∀ a b, r a b → g b = f a) : y.map g = x.map f := by
  cases x with
  | error e =>
    cases y with
    | error e' => exact congrArg Except.error (Eq.symm agree)
    | ok b => exact agree.elim
  | ok a =>
    cases y with
    | error e' => exact agree.elim
    | ok b => exact congrArg Except.ok (same a b agree)

/-- The simulation rule: related states stay related, and errors are the same errors. -/
theorem foldlM_simulation {g : τ → α → Except ε τ} {t : τ} (l : List α) (start : r s t)
    (step : ∀ a ∈ l, ∀ s t, r s t → Agree r (f s a) (g t a)) :
    Agree r (l.foldlM f s) (l.foldlM g t) := by
  induction l generalizing s t with
  | nil => exact start
  | cons a rest ih =>
    have here := step a mem_cons_self s t start
    have later : ∀ b ∈ rest, ∀ s t, r s t → Agree r (f s b) (g t b) :=
      fun b member => step b (mem_cons_of_mem a member)
    rw [foldlM_cons, foldlM_cons]
    cases left : f s a with
    | error e =>
      cases right : g t a with
      | error e' => rw [left, right] at here; exact here
      | ok t' => rw [left, right] at here; exact here.elim
    | ok s' =>
      cases right : g t a with
      | error e' => rw [left, right] at here; exact here.elim
      | ok t' =>
        rw [left, right] at here
        exact ih here later

end Checked
