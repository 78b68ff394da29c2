import PointsTo.Action

/-!
# What actions end in

`Ends m s Q E` says of one run of an action that it ends in `Q` if it gives a
value and in `E` if it fails. Actions are sequences of reads, writes and calls,
so a statement about one is unfolded from its first step on: the lemmas
`ends_bind`, `ends_get` and so on rewrite it into a statement about the states
in between. A loop is left in one step, by what its body keeps of the elements
that are still ahead.

Two actions are compared by the runs that they have from the same state (`Agree`), or
one with what it does to a part of its state (`Mirrors`).

What is true all along an action is shown of its parts: `Maintains` says that an
action leaves an invariant true wherever it is run, and then the invariant holds
at every call that a loop makes (`Visits`). For what is the same all along an
action, a part of the state that it does not touch or the errors it can fail
with, the states in between need not be looked at. `Frame.Bounds` says that an
action stays within such a frame wherever it is run, and an action does if its
parts do.
-/

namespace PointsTo

namespace Action

variable {σ α β : Type}

/-- The run of `m` from `s` ends in `Q` if it gives a value, in `E` if it fails. -/
def Ends (m : Action σ α) (s : σ) (Q : α → σ → Prop) (E : AnalysisError → σ → Prop) : Prop :=
  match m s with
  | .ok a t => Q a t
  | .error e t => E e t

instance {m : Action σ α} {s : σ} {Q : α → σ → Prop} {E : AnalysisError → σ → Prop}
    [∀ a t, Decidable (Q a t)] [∀ e t, Decidable (E e t)] : Decidable (Ends m s Q E) :=
  match hm : m s with
  | .ok a t => decidable_of_iff (Q a t) (by rw [Ends, hm])
  | .error e t => decidable_of_iff (E e t) (by rw [Ends, hm])

section Ends

variable {s : σ} {Q Q' : α → σ → Prop} {R : β → σ → Prop} {E E' : AnalysisError → σ → Prop}

theorem ends_pure {a : α} : Ends (pure a) s Q E ↔ Q a s := Iff.rfl

theorem ends_get {Q : σ → σ → Prop} : Ends get s Q E ↔ Q s s := Iff.rfl

theorem ends_set {Q : PUnit → σ → Prop} {t : σ} : Ends (set t) s Q E ↔ Q () t := Iff.rfl

theorem ends_modify {Q : PUnit → σ → Prop} {f : σ → σ} :
    Ends (modify f) s Q E ↔ Q () (f s) := Iff.rfl

theorem ends_bind {m : Action σ α} {f : α → Action σ β} :
    Ends (m >>= f) s R E ↔ Ends m s (fun a t => Ends (f a) t R E) E := by
  simp only [Ends, bind, EStateM.bind]
  cases m s <;> rfl

theorem ends_ofExcept {x : Except AnalysisError α} :
    Ends (ofExcept x) s Q E ↔ (∀ a, x = .ok a → Q a s) ∧ ∀ e, x = .error e → E e s := by
  cases x <;> simp [Ends]

theorem ends_ofExcept_ok {a : α} : Ends (ofExcept (.ok a)) s Q E ↔ Q a s := Iff.rfl

theorem ends_ofExcept_error {e : AnalysisError} :
    Ends (ofExcept (.error e)) s Q E ↔ E e s := Iff.rfl

theorem ends_ofStep {f : σ → Except AnalysisError (α × σ)} :
    Ends (ofStep f) s Q E ↔ (∀ a t, f s = .ok (a, t) → Q a t) ∧ ∀ e, f s = .error e → E e s := by
  rw [Ends, ofStep]
  rcases f s with e | ⟨a, t⟩ <;> simp

theorem ends_ite {c : Prop} [Decidable c] {m m' : Action σ α} :
    Ends (if c then m else m') s Q E ↔ (c → Ends m s Q E) ∧ (¬c → Ends m' s Q E) := by
  split <;> simp [*]

theorem Ends.imp {m : Action σ α} (h : Ends m s Q E) (hQ : ∀ a t, Q a t → Q' a t)
    (hE : ∀ e t, E e t → E' e t) : Ends m s Q' E' := by
  unfold Ends at *
  cases hm : m s with
  | ok a t =>
      rw [hm] at h
      exact hQ a t h
  | error e t =>
      rw [hm] at h
      exact hE e t h

theorem Ends.imp_ok {m : Action σ α} (h : Ends m s Q E) (hQ : ∀ a t, Q a t → Q' a t) :
    Ends m s Q' E :=
  h.imp hQ fun _ _ he => he

theorem Ends.imp_error {m : Action σ α} (h : Ends m s Q E) (hE : ∀ e t, E e t → E' e t) :
    Ends m s Q E' :=
  h.imp (fun _ _ hq => hq) hE

theorem Ends.and {m : Action σ α} (h : Ends m s Q E) (h' : Ends m s Q' E') :
    Ends m s (fun a t => Q a t ∧ Q' a t) (fun e t => E e t ∧ E' e t) := by
  unfold Ends at *
  cases hm : m s with
  | ok a t =>
      rw [hm] at h h'
      exact ⟨h, h'⟩
  | error e t =>
      rw [hm] at h h'
      exact ⟨h, h'⟩

/-- A call followed by the rest of an action. -/
theorem Ends.bind {m : Action σ α} {f : α → Action σ β} (h : Ends m s Q E)
    (hf : ∀ a t, Q a t → Ends (f a) t R E) : Ends (m >>= f) s R E :=
  ends_bind.2 (h.imp_ok hf)

/-- A call that depends on a condition, followed by the rest of an action. -/
theorem Ends.ite_bind {c : Prop} [Decidable c] {m m' : Action σ α} {f : α → Action σ β}
    (h : Ends (if c then m else m') s Q E) (hf : ∀ a t, Q a t → Ends (f a) t R E) :
    Ends (if c then m >>= f else m' >>= f) s R E := by
  split at h
  next hc =>
    rw [if_pos hc]
    exact h.bind hf
  next hc =>
    rw [if_neg hc]
    exact h.bind hf

/-- An action ends in whatever it gives. -/
theorem ends_self (m : Action σ α) (s : σ) :
    Ends m s (fun a t => m s = .ok a t) fun e t => m s = .error e t := by
  unfold Ends
  cases m s <;> rfl

theorem ends_trivial (m : Action σ α) (s : σ) : Ends m s (fun _ _ => True) fun _ _ => True :=
  (ends_self m s).imp (fun _ _ _ => trivial) fun _ _ _ => trivial

theorem Ends.exists_ok {m : Action σ α} (h : Ends m s Q fun _ _ => False) :
    ∃ a t, m s = .ok a t ∧ Q a t := by
  unfold Ends at h
  cases hm : m s with
  | ok a t =>
      rw [hm] at h
      exact ⟨a, t, rfl, h⟩
  | error e t =>
      rw [hm] at h
      exact h.elim

theorem Ends.exists_error {m : Action σ α} (h : Ends m s (fun _ _ => False) E) :
    ∃ e t, m s = .error e t ∧ E e t := by
  unfold Ends at h
  cases hm : m s with
  | ok a t =>
      rw [hm] at h
      exact h.elim
  | error e t =>
      rw [hm] at h
      exact ⟨e, t, rfl, h⟩

theorem bind_ok {m : Action σ α} {a : α} {t : σ} (h : m s = .ok a t) (f : α → Action σ β) :
    (m >>= f) s = f a t := by
  change EStateM.bind m f s = f a t
  rw [EStateM.bind, h]

theorem bind_error {m : Action σ α} {e : AnalysisError} {t : σ} (h : m s = .error e t)
    (f : α → Action σ β) : (m >>= f) s = .error e t := by
  change EStateM.bind m f s = .error e t
  rw [EStateM.bind, h]

/-- Actions come to the same if their first calls do. -/
theorem bind_congr_left {m m' : Action σ α} (h : m s = m' s) (f : α → Action σ β) :
    (m >>= f) s = (m' >>= f) s := by
  simp only [bind, EStateM.bind, h]

/-- Actions come to the same if what follows their first call does. -/
theorem bind_congr_right {m : Action σ α} {f g : α → Action σ β}
    (h : Ends m s (fun a t => f a t = g a t) E) : (m >>= f) s = (m >>= g) s := by
  unfold Ends at h
  simp only [bind, EStateM.bind]
  cases hm : m s with
  | ok a t =>
      rw [hm] at h
      exact h
  | error e t => rfl

/-- What is so whatever the outcome holds of the state that is left. -/
theorem Ends.state {m : Action σ α} {P : σ → Prop} (h : Ends m s (fun _ => P) fun _ => P) :
    P (state m s) := by
  unfold Ends at h
  unfold Action.state
  cases hm : m s with
  | ok a t => rwa [hm] at h
  | error e t => rwa [hm] at h

theorem Ends.of_eq_ok {m : Action σ α} {a : α} {t : σ} (h : Ends m s Q E) (hm : m s = .ok a t) :
    Q a t := by
  rwa [Ends, hm] at h

theorem Ends.of_eq_error {m : Action σ α} {e : AnalysisError} {t : σ} (h : Ends m s Q E)
    (hm : m s = .error e t) : E e t := by
  rwa [Ends, hm] at h

/-- An action that fails ends in the state that it leaves. -/
theorem Ends.of_value_eq_error {m : Action σ α} {e : AnalysisError} (h : Ends m s Q E)
    (he : value m s = .error e) : E e (Action.state m s) := by
  cases hm : m s with
  | ok a t =>
      rw [value, hm] at he
      cases he
  | error e' t =>
      rw [value, hm] at he
      cases he
      rw [Action.state, hm]
      exact h.of_eq_error hm

end Ends

theorem ends_forM {f : α → Action σ PUnit} {E : AnalysisError → σ → Prop}
    (I : List α → σ → Prop)
    (hstep : ∀ a as s, I (a :: as) s → Ends (f a) s (fun _ t => I as t) E) {xs : List α} {s : σ}
    (h : I xs s) : Ends (xs.forM f) s (fun _ t => I [] t) E := by
  induction xs generalizing s with
  | nil => exact ends_pure.2 h
  | cons a as ih => exact (hstep a as s h).bind fun _ t ht => ih ht

/-- A loop that keeps `I` and makes `P` true of one element after the other, if
what it has made true stays true. -/
theorem ends_forM_all {f : α → Action σ PUnit} {E : AnalysisError → σ → Prop} {I : σ → Prop}
    {P : α → σ → Prop} {xs : List α} {s : σ} (h : I s)
    (hstep : ∀ a ∈ xs, ∀ t, I t →
      Ends (f a) t (fun _ u => I u ∧ P a u ∧ ∀ b, P b t → P b u) E) :
    Ends (xs.forM f) s (fun _ t => I t ∧ ∀ a ∈ xs, P a t) E := by
  refine (ends_forM (fun rest t => I t ∧ rest ⊆ xs ∧ ∀ a ∈ xs, a ∈ rest ∨ P a t) ?_
    ⟨h, List.Subset.refl xs, fun a ha => .inl ha⟩).imp_ok ?_
  · rintro a rest t ⟨hI, hsub, hall⟩
    refine (hstep a (hsub List.mem_cons_self) t hI).imp_ok ?_
    rintro _ u ⟨hu, ha, hkeep⟩
    refine ⟨hu, List.subset_of_cons_subset hsub, fun b hb => ?_⟩
    rcases hall b hb with hb | hb
    · rcases List.mem_cons.1 hb with rfl | hb
      · exact .inr ha
      · exact .inl hb
    · exact .inr (hkeep b hb)
  · rintro _ t ⟨ht, _, hall⟩
    exact ⟨ht, fun a ha => (hall a ha).resolve_left List.not_mem_nil⟩

theorem ends_foldlM {f : β → α → Action σ β} {E : AnalysisError → σ → Prop}
    (I : List α → β → σ → Prop)
    (hstep : ∀ a as b s, I (a :: as) b s → Ends (f b a) s (fun b' t => I as b' t) E)
    {xs : List α} {b : β} {s : σ} (h : I xs b s) :
    Ends (xs.foldlM f b) s (fun b' t => I [] b' t) E := by
  induction xs generalizing b s with
  | nil => exact ends_pure.2 h
  | cons a as ih => exact (hstep a as b s h).bind fun _ t ht => ih ht

/-- The loop over `xs` from `b` and `s` comes to run its body on `c` and `y` in the state
`u`. -/
inductive Visits (f : β → α → Action σ β) : List α → β → σ → β → α → σ → Prop
  | head {y : α} {xs : List α} {c : β} {u : σ} : Visits f (y :: xs) c u c y u
  | tail {x y : α} {xs : List α} {b b' c : β} {s t u : σ} (h : f b x s = .ok b' t)
      (hrest : Visits f xs b' t c y u) : Visits f (x :: xs) b s c y u

/-- What a loop keeps holds wherever it comes to run its body. -/
theorem Visits.inv {f : β → α → Action σ β} (I : List α → β → σ → Prop)
    (hstep : ∀ a as b s, I (a :: as) b s →
      Ends (f b a) s (fun b' t => I as b' t) fun _ _ => True)
    {xs : List α} {b c : β} {s u : σ} {y : α} (hvisits : Visits f xs b s c y u)
    (h : I xs b s) : ∃ rest, I (y :: rest) c u := by
  induction hvisits with
  | head => exact ⟨_, h⟩
  | tail hok _ ih =>
      exact ih ((hstep _ _ _ _ h).of_eq_ok hok)

/-- The same for a loop that carries nothing from one element to the next. -/
def VisitsEach (f : α → Action σ PUnit) (xs : List α) (s : σ) (y : α) (u : σ) : Prop :=
  Visits (fun _ : PUnit => f) xs () s () y u

/-! ## Two runs -/

/-- The runs of two actions from the same state end in the same state, with values that `R`
relates or with the same error. -/
def Agree (R : α → β → Prop) (m : Action σ α) (m' : Action σ β) (s : σ) : Prop :=
  Ends m s (fun a t => ∃ b, m' s = .ok b t ∧ R a b) fun e t => m' s = .error e t

section Agree

variable {γ δ : Type} {s : σ} {R : α → β → Prop} {S : γ → δ → Prop}

theorem agree_pure {a : α} {b : β} (h : R a b) : Agree R (pure a) (pure b) s := ⟨b, rfl, h⟩

theorem Agree.refl (m : Action σ α) (s : σ) : Agree (· = ·) m m s :=
  (ends_self m s).imp_ok fun a _ h => ⟨a, h, rfl⟩

theorem Agree.bind {m : Action σ α} {m' : Action σ β} {f : α → Action σ γ} {f' : β → Action σ δ}
    (h : Agree R m m' s) (hf : ∀ a b, R a b → ∀ t, Agree S (f a) (f' b) t) :
    Agree S (m >>= f) (m' >>= f') s := by
  refine ends_bind.2 (Ends.imp h (fun a t ha => ?_) fun e t he => bind_error he f')
  obtain ⟨b, hb, hab⟩ := ha
  rw [bind_ok hb]
  exact hf a b hab t

/-- Calls that depend on the same condition, followed by the rest of two actions. -/
theorem Agree.ite_bind {c : Prop} [Decidable c] {m n : Action σ α} {m' n' : Action σ β}
    {f : α → Action σ γ} {f' : β → Action σ δ} (hm : c → Agree R m m' s)
    (hn : ¬c → Agree R n n' s) (hf : ∀ a b, R a b → ∀ t, Agree S (f a) (f' b) t) :
    Agree S (if c then m >>= f else n >>= f) (if c then m' >>= f' else n' >>= f') s := by
  by_cases hc : c
  · rw [if_pos hc, if_pos hc]
    exact (hm hc).bind hf
  · rw [if_neg hc, if_neg hc]
    exact (hn hc).bind hf

/-- Both runs give a value, or both fail. -/
theorem Agree.outcomes {m : Action σ α} {m' : Action σ β} (h : Agree R m m' s) :
    (∃ a b t, m s = .ok a t ∧ m' s = .ok b t ∧ R a b) ∨
      ∃ e t, m s = .error e t ∧ m' s = .error e t := by
  unfold Agree Ends at h
  cases hm : m s with
  | ok a t =>
      rw [hm] at h
      obtain ⟨b, hb, hab⟩ := h
      exact .inl ⟨a, b, t, rfl, hb, hab⟩
  | error e t =>
      rw [hm] at h
      exact .inr ⟨e, t, rfl, h⟩

end Agree

/-! ## A part of the state -/

/-- The action does to a part of its state what `m'` does to that part alone. -/
def Mirrors {τ : Type} (part : σ → τ) (m : Action σ α) (m' : Action τ α) : Prop :=
  ∀ s, Ends m s (fun a t => m' (part s) = .ok a (part t))
    fun e t => m' (part s) = .error e (part t)

section Mirrors

variable {τ : Type} {part : σ → τ} {m : Action σ α} {m' : Action τ α}

theorem mirrors_pure (a : α) : Mirrors part (pure a) (pure a) := fun _ => rfl

theorem Mirrors.bind {f : α → Action σ β} {f' : α → Action τ β} (h : Mirrors part m m')
    (hf : ∀ a, Mirrors part (f a) (f' a)) : Mirrors part (m >>= f) (m' >>= f') := by
  refine fun s => ends_bind.2 ((h s).imp (fun a t ha => ?_) fun e t he => bind_error he f')
  rw [bind_ok ha]
  exact hf a t

/-- What is changed elsewhere does not matter. -/
theorem Mirrors.modify_bind {f : σ → σ} (h : Mirrors part m m')
    (hf : ∀ s, part (f s) = part s) : Mirrors part (do modify f; m) m' := by
  intro s
  rw [ends_bind, ends_modify, ← hf s]
  exact h (f s)

/-- A part that an action looks at in the same way as at the whole. -/
theorem Mirrors.get_bind {part : σ → σ} {f : σ → Action σ α} (hf : ∀ s, f (part s) = f s)
    (h : ∀ s, Mirrors part (f s) (f s)) : Mirrors part (get >>= f) (get >>= f) := by
  intro s
  have hpart : (get >>= f) (part s) = f s (part s) := by
    rw [← hf s]
    rfl
  rw [ends_bind, ends_get, hpart]
  exact h s s

theorem mirrors_modify {part : σ → σ} {f : σ → σ} (h : ∀ s, part (f s) = f (part s)) :
    Mirrors part (modify f) (modify f) := by
  intro s
  rw [ends_modify, h]
  rfl

theorem mirrors_throw (e : AnalysisError) :
    Mirrors part (throw e : Action σ α) (throw e : Action τ α) := fun _ => rfl

theorem Mirrors.ite {c : Prop} [Decidable c] {n : Action σ α} {n' : Action τ α}
    (hm : Mirrors part m m') (hn : Mirrors part n n') :
    Mirrors part (if c then m else n) (if c then m' else n') := by
  split
  next => exact hm
  next => exact hn

theorem mirrors_forM {f : β → Action σ PUnit} {f' : β → Action τ PUnit}
    (h : ∀ x, Mirrors part (f x) (f' x)) (xs : List β) :
    Mirrors part (xs.forM f) (xs.forM f') := by
  induction xs with
  | nil => exact mirrors_pure _
  | cons x xs ih => exact (h x).bind fun _ => ih

theorem mirrors_foldlM {f : β → α → Action σ β} {f' : β → α → Action τ β}
    (h : ∀ b x, Mirrors part (f b x) (f' b x)) (xs : List α) (b : β) :
    Mirrors part (xs.foldlM f b) (xs.foldlM f' b) := by
  induction xs generalizing b with
  | nil => exact mirrors_pure b
  | cons x xs ih => exact (h b x).bind ih

theorem Mirrors.exists_ok (h : Mirrors part m m') {s : σ} {a : α} {t : τ}
    (hok : m' (part s) = .ok a t) : ∃ u, m s = .ok a u ∧ part u = t := by
  have hends := h s
  rw [Ends, hok] at hends
  cases hm : m s with
  | ok b u =>
      rw [hm] at hends
      cases hends
      exact ⟨u, rfl, rfl⟩
  | error e u =>
      rw [hm] at hends
      cases hends

end Mirrors

/-! ## Invariants -/

/-- `I` is left true by the action wherever it is run, unless the action fails; then `J` is. -/
def Maintains (I J : σ → Prop) (m : Action σ α) : Prop :=
  ∀ s, I s → Ends m s (fun _ => I) fun _ => J

section Maintains

variable {I J : σ → Prop}

theorem maintains_pure (a : α) : Maintains I J (pure a) := fun _ hs => hs

theorem maintains_get : Maintains I J get := fun _ hs => hs

theorem maintains_modify {f : σ → σ} (h : ∀ s, I s → I (f s)) : Maintains I J (modify f) := h

theorem maintains_ofExcept {x : Except AnalysisError α} (h : ∀ s, I s → J s) :
    Maintains I J (ofExcept x) := fun s hs => ends_ofExcept.2 ⟨fun _ _ => hs, fun _ _ => h s hs⟩

theorem Maintains.bind {m : Action σ α} {f : α → Action σ β} (hm : Maintains I J m)
    (hf : ∀ a, Maintains I J (f a)) : Maintains I J (m >>= f) :=
  fun s hs => (hm s hs).bind fun a t ht => hf a t ht

theorem Maintains.ite {c : Prop} [Decidable c] {m m' : Action σ α} (h : Maintains I J m)
    (h' : Maintains I J m') : Maintains I J (if c then m else m') :=
  fun s hs => ends_ite.2 ⟨fun _ => h s hs, fun _ => h' s hs⟩

theorem Maintains.ite_bind {c : Prop} [Decidable c] {m m' : Action σ α} {f : α → Action σ β}
    (h : Maintains I J (if c then m else m')) (hf : ∀ a, Maintains I J (f a)) :
    Maintains I J (if c then m >>= f else m' >>= f) :=
  fun s hs => (h s hs).ite_bind fun a t ht => hf a t ht

theorem maintains_forM {f : α → Action σ PUnit} (h : ∀ x, Maintains I J (f x)) (xs : List α) :
    Maintains I J (xs.forM f) :=
  fun _ hs => ends_forM (fun _ t => I t) (fun x _ t ht => h x t ht) hs

theorem maintains_foldlM {f : β → α → Action σ β} (h : ∀ b x, Maintains I J (f b x)) (xs : List α)
    (b : β) : Maintains I J (xs.foldlM f b) :=
  fun _ hs => ends_foldlM (fun _ _ t => I t) (fun x _ c t ht => h c x t ht) hs

/-- What the body of a loop maintains holds wherever the loop comes to run it. -/
theorem Visits.maintained {f : β → α → Action σ β} {xs : List α} {b c : β} {s u : σ} {y : α}
    (hvisits : Visits f xs b s c y u) (h : ∀ b x, Maintains I J (f b x)) (hs : I s) : I u := by
  obtain ⟨_, hu⟩ := hvisits.inv (fun _ _ t => I t)
    (fun x _ c t ht => (h c x t ht).imp_error fun _ _ _ => trivial) hs
  exact hu

theorem VisitsEach.maintained {f : α → Action σ PUnit} {xs : List α} {s u : σ} {y : α}
    (hvisits : VisitsEach f xs s y u) (h : ∀ x, Maintains I J (f x)) (hs : I s) : I u :=
  Visits.maintained hvisits (fun _ => h) hs

/-- What an action that gives a value maintains holds in the state that it leaves. -/
theorem Maintains.of_eq_ok {m : Action σ α} (h : Maintains I J m) {s t : σ} {a : α} (hs : I s)
    (hok : m s = .ok a t) : I t :=
  (h s hs).of_eq_ok hok

end Maintains

/-! ## Frames -/

/-- What an action may change, and with which errors it may fail. The errors do not
depend on what has been changed so far. -/
structure Frame (σ : Type) where
  Keeps : σ → σ → Prop
  Fails : σ → AnalysisError → Prop
  refl (s : σ) : Keeps s s
  trans {s t u : σ} : Keeps s t → Keeps t u → Keeps s u
  fails {s t : σ} {e : AnalysisError} : Keeps s t → Fails t e → Fails s e

namespace Frame

variable {F : Frame σ}

/-- The action stays within the frame wherever it is run. -/
def Bounds (F : Frame σ) (m : Action σ α) : Prop :=
  ∀ s, Ends m s (fun _ t => F.Keeps s t) (fun e _ => F.Fails s e)

theorem bounds_pure (a : α) : F.Bounds (pure a) := fun s => F.refl s

theorem bounds_get : F.Bounds get := fun s => F.refl s

theorem bounds_modify {f : σ → σ} (h : ∀ s, F.Keeps s (f s)) : F.Bounds (modify f) := h

theorem Bounds.bind {m : Action σ α} {f : α → Action σ β} (hm : F.Bounds m)
    (hf : ∀ a, F.Bounds (f a)) : F.Bounds (m >>= f) := by
  refine fun s => (hm s).bind fun a t ht => (hf a t).imp (fun _ _ => F.trans ht) ?_
  exact fun _ _ => F.fails ht

theorem Bounds.ite {c : Prop} [Decidable c] {m m' : Action σ α} (h : F.Bounds m)
    (h' : F.Bounds m') : F.Bounds (if c then m else m') := by
  split
  next => exact h
  next => exact h'

theorem bounds_forM {f : α → Action σ PUnit} {xs : List α} (h : ∀ x, F.Bounds (f x)) :
    F.Bounds (xs.forM f) := by
  induction xs with
  | nil => exact bounds_pure _
  | cons x xs ih => exact (h x).bind fun _ => ih

theorem bounds_foldlM {f : β → α → Action σ β} {xs : List α} (h : ∀ b x, F.Bounds (f b x))
    (b : β) : F.Bounds (xs.foldlM f b) := by
  induction xs generalizing b with
  | nil => exact bounds_pure _
  | cons x xs ih => exact (h b x).bind fun b' => ih b'

end Frame

end Action

end PointsTo
