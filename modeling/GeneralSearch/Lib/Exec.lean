import Mathlib.Data.List.Induction

/-! Weakest preconditions for computations that may throw and keep their state when they do, and
the peeling of pure computations that may throw. -/

namespace GeneralSearch.Lib

section

variable {ε σ α β : Type}

/-- `x` from `s` returns as `Q` says or throws as `E` says. -/
def Wp (x : EStateM ε σ α) (s : σ) (Q : α → σ → Prop) (E : ε → σ → Prop) : Prop :=
  match x s with
  | .ok a s' => Q a s'
  | .error e s' => E e s'

variable {s : σ} {Q Q' : α → σ → Prop} {E E' : ε → σ → Prop}

theorem Wp.mono {x : EStateM ε σ α} (h : Wp x s Q E) (hQ : ∀ a s', Q a s' → Q' a s')
    (hE : ∀ e s', E e s' → E' e s') : Wp x s Q' E' := by
  unfold Wp at h ⊢
  split
  · rename_i a s' heq
    rw [heq] at h
    exact hQ a s' h
  · rename_i e s' heq
    rw [heq] at h
    exact hE e s' h

/-- What holds of a result holds of the run that has it. -/
theorem Wp.ok {x : EStateM ε σ α} {a : α} {s' : σ} (h : Wp x s Q E) (hx : x s = .ok a s') :
    Q a s' := by
  rw [Wp, hx] at h
  exact h

theorem Wp.error {x : EStateM ε σ α} {e : ε} {s' : σ} (h : Wp x s Q E) (hx : x s = .error e s') :
    E e s' := by
  rw [Wp, hx] at h
  exact h

/-- A weakest precondition is shown by its two outcomes. -/
theorem Wp.of_results {x : EStateM ε σ α} (hQ : ∀ a s', x s = .ok a s' → Q a s')
    (hE : ∀ e s', x s = .error e s' → E e s') : Wp x s Q E := by
  unfold Wp
  split
  · exact hQ _ _ ‹_›
  · exact hE _ _ ‹_›

theorem Wp.and {x : EStateM ε σ α} (h : Wp x s Q E) (h' : Wp x s Q' E') :
    Wp x s (fun a s' => Q a s' ∧ Q' a s') (fun e s' => E e s' ∧ E' e s') :=
  .of_results (fun _ _ hx => ⟨h.ok hx, h'.ok hx⟩) fun _ _ hx => ⟨h.error hx, h'.error hx⟩

/-- A run whose result is dropped. -/
theorem ok_of_discard {x : EStateM ε σ α} {u : Unit} {s' : σ}
    (h : (x >>= fun _ => pure ()) s = .ok u s') : ∃ a, x s = .ok a s' := by
  have h' : EStateM.bind x (fun _ => pure ()) s = .ok u s' := h
  unfold EStateM.bind at h'
  cases hx : x s with
  | ok a t =>
    rw [hx] at h'
    cases h'
    exact ⟨a, rfl⟩
  | error e t =>
    rw [hx] at h'
    cases h'

@[simp] theorem wp_pure {a : α} : Wp (pure a) s Q E ↔ Q a s := Iff.rfl

@[simp] theorem wp_throw {e : ε} : Wp (throw e) s Q E ↔ E e s := Iff.rfl

@[simp] theorem wp_get {Q : σ → σ → Prop} : Wp (get : EStateM ε σ σ) s Q E ↔ Q s s := Iff.rfl

@[simp] theorem wp_set {s' : σ} {Q : PUnit → σ → Prop} :
    Wp (set s' : EStateM ε σ PUnit) s Q E ↔ Q ⟨⟩ s' := Iff.rfl

@[simp] theorem wp_modify {f : σ → σ} {Q : PUnit → σ → Prop} :
    Wp (modify f : EStateM ε σ PUnit) s Q E ↔ Q ⟨⟩ (f s) := Iff.rfl

@[simp] theorem wp_bind {x : EStateM ε σ α} {f : α → EStateM ε σ β} {Q : β → σ → Prop} :
    Wp (x >>= f) s Q E ↔ Wp x s (fun a s' => Wp (f a) s' Q E) E := by
  show (match EStateM.bind x f s with
    | .ok a s' => Q a s'
    | .error e s' => E e s') ↔ _
  unfold EStateM.bind Wp
  cases x s <;> rfl

@[simp] theorem wp_map {x : EStateM ε σ α} {f : α → β} {Q : β → σ → Prop} :
    Wp (f <$> x) s Q E ↔ Wp x s (fun a s' => Q (f a) s') E := by
  show (match EStateM.map f x s with
    | .ok a s' => Q a s'
    | .error e s' => E e s') ↔ _
  unfold EStateM.map Wp
  cases x s <;> rfl

@[simp] theorem wp_tryCatch {x : EStateM ε σ α} {handler : ε → EStateM ε σ α} :
    Wp (tryCatch x handler) s Q E ↔ Wp x s Q fun e s' => Wp (handler e) s' Q E := by
  show (match EStateM.tryCatch x handler s with
    | .ok a s' => Q a s'
    | .error e s' => E e s') ↔ _
  unfold EStateM.tryCatch Wp
  cases x s <;> rfl

/-- Running one computation after the other. -/
theorem Wp.bind {x : EStateM ε σ α} {f : α → EStateM ε σ β} {P : α → σ → Prop} {Q : β → σ → Prop}
    (hx : Wp x s P E) (hf : ∀ a s', P a s' → Wp (f a) s' Q E) : Wp (x >>= f) s Q E :=
  wp_bind.mpr (hx.mono hf fun _ _ h => h)

/-- What every round of a loop keeps. -/
theorem Wp.forM {f : α → EStateM ε σ PUnit} {I : σ → Prop} {xs : List α} (hs : I s)
    (hf : ∀ x ∈ xs, ∀ s', I s' → Wp (f x) s' (fun _ s'' => I s'') E) :
    Wp (xs.forM f) s (fun _ s' => I s') E := by
  induction xs generalizing s with
  | nil => exact hs
  | cons x xs ih =>
    show Wp (f x >>= fun _ => xs.forM f) s _ _
    exact Wp.bind (hf x (by simp) s hs) fun _ s' hs' => ih hs' fun y hy => hf y (by simp [hy])

/-- A handler that goes on from whatever the computation threw with. -/
theorem Wp.tryCatch {x : EStateM ε σ α} {handler : ε → EStateM ε σ α} {I : ε → σ → Prop}
    (hx : Wp x s Q I) (hh : ∀ e s', I e s' → Wp (handler e) s' Q E) :
    Wp (tryCatchThe ε x handler) s Q E :=
  wp_tryCatch.mpr (hx.mono (fun _ _ h => h) hh)

@[simp] theorem wp_ite {c : Prop} [Decidable c] {x y : EStateM ε σ α} :
    Wp (if c then x else y) s Q E ↔ (c → Wp x s Q E) ∧ (¬c → Wp y s Q E) := by
  by_cases h : c <;> simp [h]

end

/-! ### What a computation leaves alone -/

section

variable {ε σ α β : Type} {I : σ → Prop}

/-- `I` is kept however the computation ends. -/
def Preserves (I : σ → Prop) (x : EStateM ε σ α) : Prop :=
  ∀ s, I s → Wp x s (fun _ s' => I s') fun _ s' => I s'

namespace Preserves

theorem pure {a : α} : Preserves I (Pure.pure a : EStateM ε σ α) := fun _ h => h

theorem throw {e : ε} : Preserves I (throwThe ε e : EStateM ε σ α) := fun _ h => h

theorem get : Preserves I (MonadState.get : EStateM ε σ σ) := fun _ h => h

theorem modify {f : σ → σ} (hf : ∀ s, I s → I (f s)) :
    Preserves I (modify f : EStateM ε σ PUnit) := hf

theorem bind {x : EStateM ε σ α} {f : α → EStateM ε σ β} (hx : Preserves I x)
    (hf : ∀ a, Preserves I (f a)) : Preserves I (x >>= f) :=
  fun s h => Wp.bind (hx s h) fun a s' h' => hf a s' h'

theorem ite {c : Prop} [Decidable c] {x y : EStateM ε σ α} (hx : Preserves I x)
    (hy : Preserves I y) : Preserves I (if c then x else y) :=
  fun s h => wp_ite.mpr ⟨fun _ => hx s h, fun _ => hy s h⟩

theorem tryCatch {x : EStateM ε σ α} {handler : ε → EStateM ε σ α} (hx : Preserves I x)
    (hh : ∀ e, Preserves I (handler e)) : Preserves I (tryCatchThe ε x handler) :=
  fun s h => Wp.tryCatch (hx s h) fun e s' h' => hh e s' h'

theorem forM {f : α → EStateM ε σ PUnit} {xs : List α} (hf : ∀ x, Preserves I (f x)) :
    Preserves I (xs.forM f) :=
  fun _ h => Wp.forM h fun x _ s' h' => hf x s' h'

end Preserves

end

/-! ### Pure computations -/

section

variable {ε α β : Type}

theorem bind_eq_ok {x : Except ε α} {f : α → Except ε β} {b : β} :
    x >>= f = .ok b ↔ ∃ a, x = .ok a ∧ f a = .ok b := by
  cases x with
  | error e => simp [bind, Except.bind]
  | ok a => simp [bind, Except.bind]

@[simp] theorem mapError_eq_ok {ε' : Type} {x : Except ε α} {f : ε → ε'} {a : α} :
    x.mapError f = .ok a ↔ x = .ok a := by
  cases x <;> simp [Except.mapError]

/-- `x` returns as `P` says or throws as `E` says. -/
def Yields (x : Except ε α) (P : α → Prop) (E : ε → Prop) : Prop :=
  match x with
  | .ok a => P a
  | .error e => E e

namespace Yields

variable {x : Except ε α} {P P' : α → Prop} {E : ε → Prop}

theorem ok {a : α} (h : Yields x P E) (hx : x = .ok a) : P a := by
  rw [hx] at h
  exact h

theorem error {e : ε} (h : Yields x P E) (hx : x = .error e) : E e := by
  rw [hx] at h
  exact h

theorem mono (h : Yields x P E) (hP : ∀ a, P a → P' a) : Yields x P' E := by
  cases x with
  | ok a => exact hP a h
  | error e => exact h

theorem bind {f : α → Except ε β} {Q : β → Prop} (h : Yields x P E)
    (hf : ∀ a, P a → Yields (f a) Q E) : Yields (x >>= f) Q E := by
  cases x with
  | ok a => exact hf a h
  | error e => exact h

theorem map {f : α → β} {Q : β → Prop} (h : Yields x P E) (hf : ∀ a, P a → Q (f a)) :
    Yields (f <$> x) Q E := by
  cases x with
  | ok a => exact hf a h
  | error e => exact h

end Yields

/-- `x` and `y` return related results or throw alike. -/
def Agree (R : α → β → Prop) (x : Except ε α) (y : Except ε β) : Prop :=
  match x, y with
  | .ok a, .ok b => R a b
  | .error e, .error e' => e = e'
  | _, _ => False

namespace Agree

variable {γ δ : Type} {R : α → β → Prop} {x : Except ε α} {y : Except ε β}

theorem bind {S : γ → δ → Prop} {f : α → Except ε γ} {g : β → Except ε δ} (h : Agree R x y)
    (hfg : ∀ a b, R a b → Agree S (f a) (g b)) : Agree S (x >>= f) (y >>= g) :=
  match x, y, h with
  | .ok a, .ok b, h => hfg a b h
  | .error _, .error _, h => h

theorem mono {S : α → β → Prop} (h : Agree R x y) (hRS : ∀ a b, R a b → S a b) : Agree S x y :=
  match x, y, h with
  | .ok a, .ok b, h => hRS a b h
  | .error _, .error _, h => h

/-- Results that `f` and `g` cannot tell apart. -/
theorem map_eq {f : α → γ} {g : β → γ} (h : Agree R x y) (hfg : ∀ a b, R a b → f a = g b) :
    f <$> x = g <$> y :=
  match x, y, h with
  | .ok a, .ok b, h => congrArg Except.ok (hfg a b h)
  | .error _, .error _, h => congrArg Except.error h

/-- Two folds over one list whose rounds agree, given what they have seen. -/
theorem foldlM {R : List γ → α → β → Prop} {f : α → γ → Except ε α} {g : β → γ → Except ε β}
    {xs : List γ} {a : α} {b : β} (h : R [] a b)
    (step : ∀ seen x rest, seen ++ x :: rest = xs → ∀ a b, R seen a b →
      Agree (R (seen ++ [x])) (f a x) (g b x)) :
    Agree (R xs) (xs.foldlM f a) (xs.foldlM g b) := by
  suffices hrest : ∀ rest seen a b, seen ++ rest = xs → R seen a b →
      Agree (R xs) (rest.foldlM f a) (rest.foldlM g b) from hrest xs [] a b rfl h
  intro rest
  induction rest with
  | nil =>
    intro seen a b hxs hR
    rw [List.append_nil] at hxs
    exact hxs ▸ hR
  | cons x rest ih =>
    intro seen a b hxs hR
    rw [List.foldlM_cons, List.foldlM_cons]
    refine (step seen x rest hxs a b hR).bind fun a' b' hR' => ?_
    exact ih (seen ++ [x]) a' b' (by rw [List.append_assoc]; exact hxs) hR'

end Agree

/-- A fold that throws at the first refusal, over a list with one more element. -/
theorem foldlM_concat_eq_ok {f : β → α → Except ε β} {xs : List α} {x : α} {b b' b'' : β}
    (h : xs.foldlM f b = .ok b') (hx : f b' x = .ok b'') : (xs ++ [x]).foldlM f b = .ok b'' := by
  rw [List.foldlM_append, h]
  show ([x].foldlM f b') = _
  rw [List.foldlM_cons, hx]
  rfl

/-- What one round keeps of the elements seen so far, a fold that returns keeps of all. -/
theorem foldlM_ok_induction {f : β → α → Except ε β} {P : List α → β → Prop} {xs : List α}
    {b b' : β} (h : xs.foldlM f b = .ok b') (hb : P [] b)
    (step : ∀ seen x c c', P seen c → f c x = .ok c' → P (seen ++ [x]) c') : P xs b' := by
  induction xs using List.reverseRecOn generalizing b' with
  | nil =>
    rw [List.foldlM_nil] at h
    cases h
    exact hb
  | append_singleton seen x ih =>
    rw [List.foldlM_append, bind_eq_ok] at h
    obtain ⟨c, hc, hx⟩ := h
    rw [List.foldlM_cons, bind_eq_ok] at hx
    obtain ⟨c', hc', hlast⟩ := hx
    cases hlast
    exact step seen x c _ (ih hc) hc'

/-- A change `g` of the state that every round of a fold carries along. -/
theorem foldlM_ok_map {f : β → α → Except ε β} {g : β → β} {I : β → Prop} {xs : List α} {b b' : β}
    (h : xs.foldlM f b = .ok b') (hb : I b)
    (step : ∀ x ∈ xs, ∀ c c', I c → f c x = .ok c' → I c' ∧ f (g c) x = .ok (g c')) :
    xs.foldlM f (g b) = .ok (g b') := by
  induction xs generalizing b with
  | nil =>
    rw [List.foldlM_nil] at h ⊢
    cases h
    rfl
  | cons x xs ih =>
    rw [List.foldlM_cons, bind_eq_ok] at h ⊢
    obtain ⟨c, hc, hrest⟩ := h
    obtain ⟨hi, hg⟩ := step x (by simp) b c hb hc
    exact ⟨g c, hg, ih hrest hi fun y hy => step y (by simp [hy])⟩

theorem forM_eq_ok {f : α → Except ε Unit} {xs : List α} :
    xs.forM f = .ok () ↔ ∀ x ∈ xs, f x = .ok () := by
  induction xs with
  | nil => exact iff_of_true rfl (by simp)
  | cons x xs ih =>
    show (f x >>= fun _ => xs.forM f) = _ ↔ _
    rw [bind_eq_ok, List.forall_mem_cons]
    exact ⟨fun ⟨_, hx, hs⟩ => ⟨hx, ih.mp hs⟩, fun ⟨hx, hs⟩ => ⟨(), hx, ih.mpr hs⟩⟩

end

end GeneralSearch.Lib
