import Mathlib.Tactic.Common
import Mathlib.Order.Defs.Unbundled

/-!
# Stateful programs that may stop

Rules for programs `StateT σ (Except ε) α`, which change a state and may stop with an `ε`. For
the runs that come back, `Keeps` is a relation between the state before and
the state after; a reflexive and transitive one is kept by a sequence of programs that keep it.
`Avoids` rules out one way to stop. `Yields` is total: the program comes back, with a result and
a state that satisfy the postcondition. `Ensures` is partial: they do if it comes back. `Within`
also says in which ways it may stop. `Simulates` compares two programs on the same state.
-/

namespace Lib.Effect

variable {ε σ α β : Type}

/-- A sequence that comes back has a first part that comes back. -/
theorem run_bind_eq_ok {first : StateT σ (Except ε) α} {rest : α → StateT σ (Except ε) β}
    {s s' : σ} {b : β} (h : (first >>= rest) s = .ok (b, s')) :
    ∃ a mid, first s = .ok (a, mid) ∧ rest a mid = .ok (b, s') := by
  change (first s >>= fun x => rest x.1 x.2) = .ok (b, s') at h
  cases hfirst : first s with
  | error stop =>
      rw [hfirst] at h
      cases h
  | ok x =>
      rw [hfirst] at h
      exact ⟨x.1, x.2, rfl, h⟩

/-- A sequence whose first part comes back goes on with the rest. -/
theorem run_bind_of_ok {first : StateT σ (Except ε) α} {rest : α → StateT σ (Except ε) β}
    {s mid : σ} {a : α} (h : first s = .ok (a, mid)) :
    (first >>= rest) s = rest a mid := by
  change (first s >>= fun x => rest x.1 x.2) = rest a mid
  rw [h]
  rfl

/-- A sequence whose first part stops has stopped. -/
theorem run_bind_of_error {first : StateT σ (Except ε) α} {rest : α → StateT σ (Except ε) β}
    {s : σ} {stop : ε} (h : first s = .error stop) : (first >>= rest) s = .error stop := by
  change (first s >>= fun x => rest x.1 x.2) = .error stop
  rw [h]
  rfl

/-- A sequence that begins with a look at the state. -/
theorem run_get_bind (rest : σ → StateT σ (Except ε) α) (s : σ) :
    (get >>= rest) s = rest s s := rfl

/-- A sequence, by the outcome of its first part. -/
theorem run_bind (first : StateT σ (Except ε) α) (rest : α → StateT σ (Except ε) β) (s : σ) :
    (first >>= rest) s = match first s with
      | .ok (a, mid) => rest a mid
      | .error stop => .error stop := by
  cases h : first s with
  | error stop => exact run_bind_of_error h
  | ok x => exact run_bind_of_ok h

theorem run_ite (c : Prop) [Decidable c] (program other : StateT σ (Except ε) α) (s : σ) :
    (if c then program else other) s = if c then program s else other s := by
  split <;> rfl

theorem run_throw (stop : ε) (s : σ) :
    (throw stop : StateT σ (Except ε) α) s = .error stop := rfl

theorem run_pure (a : α) (s : σ) : (pure a : StateT σ (Except ε) α) s = .ok (a, s) := rfl

theorem run_pure_eq_ok {a b : α} {s s' : σ}
    (h : (pure a : StateT σ (Except ε) α) s = .ok (b, s')) : b = a ∧ s' = s := by
  cases h
  exact ⟨rfl, rfl⟩

section Keeps

/-- Every run that comes back relates the states before and after it. -/
def Keeps (r : σ → σ → Prop) (program : StateT σ (Except ε) α) : Prop :=
  ∀ s a s', program s = .ok (a, s') → r s s'

variable {r : σ → σ → Prop} {program : StateT σ (Except ε) α}

/-- Keeping a stronger relation is keeping a weaker one. -/
theorem Keeps.mono {q : σ → σ → Prop} (h : Keeps r program) (hq : ∀ s s', r s s' → q s s') :
    Keeps q program :=
  fun s a s' hrun => hq s s' (h s a s' hrun)

theorem keeps_throw (stop : ε) : Keeps r (throw stop : StateT σ (Except ε) α) :=
  fun _ _ _ hrun => by cases hrun

/-- The branches of a test. -/
theorem keeps_ite {p : Prop} [Decidable p] {other : StateT σ (Except ε) α}
    (h : p → Keeps r program) (hother : ¬ p → Keeps r other) :
    Keeps r (if p then program else other) := by
  split
  · next hp => exact h hp
  · next hp => exact hother hp

theorem keeps_pure [Std.Refl r] (a : α) : Keeps r (pure a : StateT σ (Except ε) α) := by
  intro s b s' hrun
  obtain ⟨-, rfl⟩ := run_pure_eq_ok hrun
  exact refl_of r s'

theorem keeps_get [Std.Refl r] : Keeps r (get : StateT σ (Except ε) σ) := by
  intro s b s' hrun
  cases hrun
  exact refl_of r s

/-- A change of the state that the relation allows. -/
theorem keeps_modify {change : σ → σ} (h : ∀ s, r s (change s)) :
    Keeps r (modify change : StateT σ (Except ε) PUnit) := by
  intro s b s' hrun
  cases hrun
  exact h s

/-- One program after another. -/
theorem Keeps.bind [IsTrans σ r] (h : Keeps r program)
    {rest : α → StateT σ (Except ε) β} (hrest : ∀ a, Keeps r (rest a)) :
    Keeps r (program >>= rest) := by
  intro s b s' hrun
  obtain ⟨a, mid, hfirst, hlast⟩ := run_bind_eq_ok hrun
  exact trans_of r (h s a mid hfirst) (hrest a mid b s' hlast)

/-- A loop over a list. -/
theorem keeps_for_m [Std.Refl r] [IsTrans σ r] {items : List β}
    {body : β → StateT σ (Except ε) PUnit} (h : ∀ b ∈ items, Keeps r (body b)) :
    Keeps r (items.forM body) := by
  induction items with
  | nil => exact keeps_pure _
  | cons item items ih =>
      exact (h item (by simp)).bind fun _ => ih fun b hb => h b (by simp [hb])

end Keeps

section Avoids

/-- No run stops with `stop`. -/
def Avoids (stop : ε) (program : StateT σ (Except ε) α) : Prop :=
  ∀ s, program s ≠ .error stop

variable {stop : ε} {program : StateT σ (Except ε) α}

theorem avoids_pure (a : α) : Avoids stop (pure a : StateT σ (Except ε) α) :=
  fun _ h => by cases h

theorem avoids_modify_get (change : σ → α × σ) :
    Avoids stop (modifyGet change : StateT σ (Except ε) α) :=
  fun _ h => by cases h

theorem avoids_throw {other : ε} (h : other ≠ stop) :
    Avoids stop (throw other : StateT σ (Except ε) α) :=
  fun _ hrun => h (Except.error.inj hrun)

/-- The branches of a test. -/
theorem avoids_ite {p : Prop} [Decidable p] {other : StateT σ (Except ε) α}
    (h : p → Avoids stop program) (hother : ¬ p → Avoids stop other) :
    Avoids stop (if p then program else other) := by
  split
  · next hp => exact h hp
  · next hp => exact hother hp

/-- One program after another. -/
theorem Avoids.bind {rest : α → StateT σ (Except ε) β} (h : Avoids stop program)
    (hrest : ∀ a, Avoids stop (rest a)) : Avoids stop (program >>= rest) := by
  intro s hrun
  cases hfirst : program s with
  | error other =>
      rw [run_bind_of_error hfirst] at hrun
      exact h s (hfirst.trans (congrArg _ (Except.error.inj hrun)))
  | ok x =>
      rw [run_bind_of_ok hfirst] at hrun
      exact hrest x.1 x.2 hrun

/-- A loop over a list. -/
theorem avoids_for_m {items : List β} {body : β → StateT σ (Except ε) PUnit}
    (h : ∀ b ∈ items, Avoids stop (body b)) : Avoids stop (items.forM body) := by
  induction items with
  | nil => exact avoids_pure _
  | cons item items ih =>
      exact (h item (by simp)).bind fun _ => ih fun b hb => h b (by simp [hb])

end Avoids

section Yields

/-- The program comes back, and its result and state satisfy the postcondition. -/
def Yields (program : StateT σ (Except ε) α) (s : σ) (post : α → σ → Prop) : Prop :=
  ∃ a s', program s = .ok (a, s') ∧ post a s'

variable {program : StateT σ (Except ε) α} {s : σ} {post : α → σ → Prop}

theorem yields_of_run {a : α} {s' : σ} (hrun : program s = .ok (a, s')) (h : post a s') :
    Yields program s post :=
  ⟨a, s', hrun, h⟩

/-- What a program yields is a matter of its one run. -/
theorem yields_iff_of_run {a : α} {s' : σ} (hrun : program s = .ok (a, s')) :
    Yields program s post ↔ post a s' := by
  refine ⟨fun ⟨b, t, hrun', hpost⟩ => ?_, yields_of_run hrun⟩
  cases hrun.symm.trans hrun'
  exact hpost

theorem yields_pure {a : α} (h : post a s) :
    Yields (pure a : StateT σ (Except ε) α) s post :=
  ⟨a, s, rfl, h⟩

/-- A weaker postcondition. -/
theorem Yields.mono {weaker : α → σ → Prop} (h : Yields program s post)
    (hweaker : ∀ a s', post a s' → weaker a s') : Yields program s weaker := by
  obtain ⟨a, s', hrun, ha⟩ := h
  exact ⟨a, s', hrun, hweaker a s' ha⟩

/-- One program after another. -/
theorem Yields.bind {rest : α → StateT σ (Except ε) β} {last : β → σ → Prop}
    (h : Yields program s post) (hrest : ∀ a s', post a s' → Yields (rest a) s' last) :
    Yields (program >>= rest) s last := by
  obtain ⟨a, mid, hfirst, ha⟩ := h
  obtain ⟨b, s', hrun, hb⟩ := hrest a mid ha
  exact ⟨b, s', (run_bind_of_ok hfirst).trans hrun, hb⟩

/-- A first part whose run is known. -/
theorem yields_bind_of_run {rest : α → StateT σ (Except ε) β} {last : β → σ → Prop} {a : α}
    {mid : σ} (hrun : program s = .ok (a, mid)) (h : Yields (rest a) mid last) :
    Yields (program >>= rest) s last := by
  obtain ⟨b, s', hrest, hb⟩ := h
  exact ⟨b, s', (run_bind_of_ok hrun).trans hrest, hb⟩

/-- A program whose result is mapped. -/
theorem yields_map_iff {g : α → β} {last : β → σ → Prop} :
    Yields (g <$> program) s last ↔ Yields program s fun a s' => last (g a) s' := by
  have hrun : (g <$> program) s = (program s).map fun x => (g x.1, x.2) := by
    change (program s >>= fun x => pure (g x.1, x.2)) = _
    cases program s <;> rfl
  rw [Yields, Yields, hrun]
  cases program s with
  | error stop => exact ⟨nofun, nofun⟩
  | ok x =>
      constructor
      · rintro ⟨b, s', heq, hb⟩
        cases heq
        exact ⟨x.1, x.2, rfl, hb⟩
      · rintro ⟨a, s', heq, ha⟩
        cases heq
        exact ⟨g a, s', rfl, ha⟩

/-- The branches of a test. -/
theorem yields_ite {p : Prop} [Decidable p] {other : StateT σ (Except ε) α}
    (h : p → Yields program s post) (hother : ¬ p → Yields other s post) :
    Yields (if p then program else other) s post := by
  split
  · next hp => exact h hp
  · next hp => exact hother hp

/-- A loop over a list, where `motive` says of the items that are done what holds after them. -/
theorem yields_forM {body : α → StateT σ (Except ε) PUnit} {motive : List α → σ → Prop}
    (items : List α) (hbody : ∀ done item rest, items = done ++ item :: rest → ∀ s,
      motive done s → Yields (body item) s fun _ s' => motive (done ++ [item]) s')
    (h : motive [] s) : Yields (items.forM body) s fun _ s' => motive items s' := by
  have hloop : ∀ todo done s, items = done ++ todo → motive done s →
      Yields (todo.forM body) s fun _ s' => motive items s' := by
    intro todo
    induction todo with
    | nil =>
        intro done s hitems hdone
        rw [List.append_nil] at hitems
        exact yields_pure (hitems ▸ hdone)
    | cons item todo ih =>
        intro done s hitems hdone
        exact (hbody done item todo hitems s hdone).bind
          fun _ s' hs' => ih (done ++ [item]) s' (by rw [hitems, List.append_assoc]; rfl) hs'
  exact hloop items [] s rfl h

end Yields

section Ensures

/-- If the program comes back, its result and state satisfy the postcondition. -/
def Ensures (program : StateT σ (Except ε) α) (s : σ) (post : α → σ → Prop) : Prop :=
  ∀ a s', program s = .ok (a, s') → post a s'

variable {program : StateT σ (Except ε) α} {s : σ} {post : α → σ → Prop}

/-- A program that comes back does so in one way. -/
theorem Yields.ensures (h : Yields program s post) : Ensures program s post := by
  intro a s' hrun
  exact (yields_iff_of_run hrun).mp h

theorem ensures_pure {a : α} (h : post a s) :
    Ensures (pure a : StateT σ (Except ε) α) s post :=
  (yields_pure h).ensures

theorem ensures_throw (stop : ε) : Ensures (throw stop : StateT σ (Except ε) α) s post :=
  fun _ _ hrun => by cases hrun

/-- A weaker postcondition. -/
theorem Ensures.mono {weaker : α → σ → Prop} (h : Ensures program s post)
    (hweaker : ∀ a s', post a s' → weaker a s') : Ensures program s weaker :=
  fun a s' hrun => hweaker a s' (h a s' hrun)

theorem Ensures.and {more : α → σ → Prop} (h : Ensures program s post)
    (hmore : Ensures program s more) : Ensures program s fun a s' => post a s' ∧ more a s' :=
  fun a s' hrun => ⟨h a s' hrun, hmore a s' hrun⟩

/-- One program after another. -/
theorem Ensures.bind {rest : α → StateT σ (Except ε) β} {last : β → σ → Prop}
    (h : Ensures program s post) (hrest : ∀ a s', post a s' → Ensures (rest a) s' last) :
    Ensures (program >>= rest) s last := by
  intro b s' hrun
  obtain ⟨a, mid, hfirst, hlast⟩ := run_bind_eq_ok hrun
  exact hrest a mid (h a mid hfirst) b s' hlast

/-- A first part that is of no account for the result. -/
theorem ensures_behind {first : StateT σ (Except ε) β} {rest : β → StateT σ (Except ε) α}
    (h : ∀ b s', Ensures (rest b) s' post) : Ensures (first >>= rest) s post :=
  (show Ensures first s fun _ _ => True from fun _ _ _ => trivial).bind fun b s' _ => h b s'

/-- A first part whose run is known. -/
theorem ensures_bind_of_run {rest : α → StateT σ (Except ε) β} {last : β → σ → Prop} {a : α}
    {mid : σ} (hrun : program s = .ok (a, mid)) (h : Ensures (rest a) mid last) :
    Ensures (program >>= rest) s last := by
  intro b s' hrest
  rw [run_bind_of_ok hrun] at hrest
  exact h b s' hrest

/-- The branches of a test. -/
theorem ensures_ite {p : Prop} [Decidable p] {other : StateT σ (Except ε) α}
    (h : p → Ensures program s post) (hother : ¬ p → Ensures other s post) :
    Ensures (if p then program else other) s post := by
  split
  · next hp => exact h hp
  · next hp => exact hother hp

end Ensures

section Within

/-- If the program comes back, its result and state satisfy the postcondition. If it stops, it is
in an allowed way. -/
def Within (allowed : ε → Prop) (program : StateT σ (Except ε) α) (s : σ) (post : α → σ → Prop) :
    Prop :=
  match program s with
  | .ok (a, s') => post a s'
  | .error stop => allowed stop

variable {allowed : ε → Prop} {program : StateT σ (Except ε) α} {s : σ} {post : α → σ → Prop}

theorem within_of_run {a : α} {s' : σ} (hrun : program s = .ok (a, s')) (h : post a s') :
    Within allowed program s post := by
  rw [Within, hrun]
  exact h

theorem within_of_stop {stop : ε} (hrun : program s = .error stop) (h : allowed stop) :
    Within allowed program s post := by
  rw [Within, hrun]
  exact h

theorem within_pure {a : α} (h : post a s) :
    Within allowed (pure a : StateT σ (Except ε) α) s post := h

theorem within_throw {stop : ε} (h : allowed stop) :
    Within allowed (throw stop : StateT σ (Except ε) α) s post := h

theorem Within.ensures (h : Within allowed program s post) : Ensures program s post := by
  intro a s' hrun
  rw [Within, hrun] at h
  exact h

theorem Within.allows (h : Within allowed program s post) {stop : ε}
    (hrun : program s = .error stop) : allowed stop := by
  rw [Within, hrun] at h
  exact h

theorem Within.and (h : Within allowed program s post) {more : α → σ → Prop}
    (hmore : Ensures program s more) :
    Within allowed program s fun a s' => post a s' ∧ more a s' := by
  cases hrun : program s with
  | ok x => exact within_of_run hrun ⟨h.ensures x.1 x.2 hrun, hmore x.1 x.2 hrun⟩
  | error stop => exact within_of_stop hrun (h.allows hrun)

/-- The run itself may be used behind the program. -/
theorem Within.and_run (h : Within allowed program s post) :
    Within allowed program s fun a s' => post a s' ∧ program s = .ok (a, s') :=
  h.and fun _ _ hrun => hrun

/-- A weaker postcondition. -/
theorem Within.mono {weaker : α → σ → Prop} (h : Within allowed program s post)
    (hweaker : ∀ a s', post a s' → weaker a s') : Within allowed program s weaker := by
  cases hrun : program s with
  | ok x => exact within_of_run hrun (hweaker x.1 x.2 (h.ensures x.1 x.2 hrun))
  | error stop => exact within_of_stop hrun (h.allows hrun)

/-- One program after another. -/
theorem Within.bind {rest : α → StateT σ (Except ε) β} {last : β → σ → Prop}
    (h : Within allowed program s post)
    (hrest : ∀ a s', post a s' → Within allowed (rest a) s' last) :
    Within allowed (program >>= rest) s last := by
  cases hrun : program s with
  | ok x =>
      have hlast := hrest x.1 x.2 (h.ensures x.1 x.2 hrun)
      rwa [Within, run_bind_of_ok hrun]
  | error stop => exact within_of_stop (run_bind_of_error hrun) (h.allows hrun)

theorem Yields.within (h : Yields program s post) : Within allowed program s post := by
  obtain ⟨a, s', hrun, ha⟩ := h
  exact within_of_run hrun ha

/-- A first part whose run is known. -/
theorem within_bind_of_run {rest : α → StateT σ (Except ε) β} {last : β → σ → Prop} {a : α}
    {mid : σ} (hrun : program s = .ok (a, mid)) (h : Within allowed (rest a) mid last) :
    Within allowed (program >>= rest) s last := by
  rwa [Within, run_bind_of_ok hrun]

/-- The branches of a test. -/
theorem within_ite {p : Prop} [Decidable p] {other : StateT σ (Except ε) α}
    (h : p → Within allowed program s post) (hother : ¬ p → Within allowed other s post) :
    Within allowed (if p then program else other) s post := by
  split
  · next hp => exact h hp
  · next hp => exact hother hp

end Within

section Simulates

variable {γ : Type} {r : α → β → Prop} {program : StateT σ (Except ε) α}
  {other : StateT σ (Except ε) β} {s : σ}

/-- From the same state the program and the other one stop alike or come back alike, with results
that are related. -/
def Simulates (r : α → β → Prop) (program : StateT σ (Except ε) α)
    (other : StateT σ (Except ε) β) : Prop :=
  ∀ s, (∃ stop, program s = .error stop ∧ other s = .error stop) ∨
    ∃ a b s', program s = .ok (a, s') ∧ other s = .ok (b, s') ∧ r a b

theorem simulates_pure {a : α} {b : β} (h : r a b) :
    Simulates r (pure a : StateT σ (Except ε) α) (pure b) :=
  fun s => .inr ⟨a, b, s, rfl, rfl, h⟩

/-- The same program in front. -/
theorem simulates_bind (first : StateT σ (Except ε) γ) {rest : γ → StateT σ (Except ε) α}
    {rest' : γ → StateT σ (Except ε) β} (h : ∀ x, Simulates r (rest x) (rest' x)) :
    Simulates r (first >>= rest) (first >>= rest') := by
  intro s
  cases hfirst : first s with
  | error stop => exact .inl ⟨stop, run_bind_of_error hfirst, run_bind_of_error hfirst⟩
  | ok x =>
      rw [run_bind_of_ok hfirst, run_bind_of_ok hfirst]
      exact h x.1 x.2

/-- What the other program yields, the program yields. -/
theorem Simulates.yields {post : β → σ → Prop} (h : Simulates r program other)
    (hother : Yields other s post) : Yields program s fun a s' => ∃ b, r a b ∧
      other s = .ok (b, s') ∧ post b s' := by
  obtain ⟨b, s', hrun, hb⟩ := hother
  rcases h s with ⟨stop, -, hstop⟩ | ⟨a, b', s'', ha, hb', hr⟩
  · cases hrun.symm.trans hstop
  · cases hrun.symm.trans hb'
    exact ⟨a, s', ha, b, hr, hrun, hb⟩

end Simulates

end Lib.Effect
