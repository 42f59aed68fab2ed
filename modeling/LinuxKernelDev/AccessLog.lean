import LinuxKernelDev.LoopRules

/-!
# Computations that keep a log

A computation that may stop is run together with the list of what it has used
so far.  Dropping the log gives back the computation.  A computation `Stays`
among some items if its log holds no others.  A sequence stays among them
exactly if its first part does and, from the value that this part returns, its
second part; a loop, exactly if every turn does to which it comes.
-/

namespace LinuxKernelDev

/-- A result, and what was used on the way to it. -/
structure Logged (ι ε α : Type) where
  log : List ι
  result : Except ε α

namespace Logged

open LoopRules

variable {ι ε α β σ : Type}

instance : Monad (Logged ι ε) where
  pure value := ⟨[], .ok value⟩
  bind first next :=
    match first.result with
    | .ok value => ⟨first.log ++ (next value).log, (next value).result⟩
    | .error stop => ⟨first.log, .error stop⟩

/-- A computation that uses the given items. -/
def perform (items : List ι) (action : Except ε α) : Logged ι ε α :=
  ⟨items, action⟩

theorem ok_bind {log : List ι} {value : α} (next : α → Logged ι ε β) :
    ((⟨log, .ok value⟩ : Logged ι ε α) >>= next) =
      ⟨log ++ (next value).log, (next value).result⟩ := rfl

theorem error_bind {log : List ι} {stop : ε} (next : α → Logged ι ε β) :
    ((⟨log, .error stop⟩ : Logged ι ε α) >>= next) = ⟨log, .error stop⟩ := rfl

instance : LawfulMonad (Logged ι ε) := by
  refine .mk' _ (fun run => ?_) (fun value next => rfl) (fun run next last => ?_)
  · obtain ⟨log, stop | value⟩ := run
    · rfl
    · change (⟨log ++ [], _⟩ : Logged ι ε _) = _
      rw [List.append_nil]
      rfl
  · obtain ⟨log, stop | value⟩ := run
    · rfl
    · rw [ok_bind, ok_bind]
      obtain ⟨nextLog, stop | value⟩ := next value
      · rfl
      · simp only [ok_bind, List.append_assoc]

section Result

@[simp]
theorem result_pure (value : α) :
    (pure value : Logged ι ε α).result = pure value := rfl

@[simp]
theorem result_bind (first : Logged ι ε α) (next : α → Logged ι ε β) :
    (first >>= next).result =
      first.result >>= fun value => (next value).result := by
  obtain ⟨log, stop | value⟩ := first <;> rfl

@[simp]
theorem result_ite {condition : Prop} [Decidable condition]
    (first second : Logged ι ε α) :
    (if condition then first else second).result =
      if condition then first.result else second.result :=
  apply_ite result condition first second

@[simp]
theorem result_foldlM (step : σ → α → Logged ι ε σ) (items : List α)
    (state : σ) :
    (items.foldlM step state).result =
      items.foldlM (fun state item => (step state item).result) state := by
  induction items generalizing state with
  | nil => rfl
  | cons item items ih =>
      rw [List.foldlM_cons, List.foldlM_cons, result_bind]
      exact congrArg _ (funext ih)

@[simp]
theorem result_forM (check : α → Logged ι ε PUnit) (items : List α) :
    (forM items check).result =
      forM items fun item => (check item).result := by
  induction items with
  | nil => rfl
  | cons item items ih =>
      rw [List.forM_cons, List.forM_cons, result_bind]
      exact congrArg _ (funext fun _ => ih)

end Result

/-- Everything that was used is allowed. -/
def Stays (allowed : ι → Prop) (run : Logged ι ε α) : Prop :=
  ∀ item ∈ run.log, allowed item

section Stays

variable {allowed : ι → Prop}

instance [DecidablePred allowed] (run : Logged ι ε α) :
    Decidable (Stays allowed run) :=
  inferInstanceAs (Decidable (∀ item ∈ run.log, allowed item))

@[simp]
theorem stays_pure (value : α) :
    Stays allowed (pure value : Logged ι ε α) := nofun

theorem stays_bind {first : Logged ι ε α} {next : α → Logged ι ε β} :
    Stays allowed (first >>= next) ↔
      Stays allowed first ∧
        ∀ value, first.result = .ok value → Stays allowed (next value) := by
  obtain ⟨log, stop | value⟩ := first
  · simp [Stays, error_bind]
  · simp only [Stays, ok_bind, List.mem_append, Except.ok.injEq, forall_eq']
    exact ⟨fun all => ⟨fun item member => all item (.inl member),
      fun item member => all item (.inr member)⟩,
      fun both item member => member.elim (both.1 item) (both.2 item)⟩

theorem stays_foldlM {step : σ → α → Logged ι ε σ} {items : List α}
    {state : σ} :
    Stays allowed (items.foldlM step state) ↔
      ∀ before item after, items = before ++ item :: after → ∀ middle,
        before.foldlM (fun state item => (step state item).result) state =
          .ok middle → Stays allowed (step middle item) := by
  induction items generalizing state with
  | nil => simp
  | cons first items ih =>
      rw [List.foldlM_cons, stays_bind]
      simp only [ih]
      constructor
      · rintro ⟨here, later⟩ before item after split middle passed
        cases before with
        | nil =>
            obtain ⟨rfl, -⟩ := List.cons.inj split
            obtain rfl := Except.ok.inj passed
            exact here
        | cons other before =>
            obtain ⟨rfl, rest⟩ := List.cons.inj split
            rw [List.foldlM_cons, bind_eq_ok_iff] at passed
            obtain ⟨next, taken, passed⟩ := passed
            exact later next taken before item after rest middle passed
      · intro each
        refine ⟨each [] first items rfl state rfl,
          fun next taken before item after split middle passed => ?_⟩
        refine each (first :: before) item after (by rw [split]; rfl) middle ?_
        rw [List.foldlM_cons, bind_eq_ok_iff]
        exact ⟨next, taken, passed⟩

theorem stays_foldlM_range {step : σ → Nat → Logged ι ε σ} {count : Nat}
    {state : σ} :
    Stays allowed ((List.range count).foldlM step state) ↔
      ∀ index < count, ∀ middle,
        (List.range index).foldlM
          (fun state item => (step state item).result) state = .ok middle →
            Stays allowed (step middle index) := by
  rw [stays_foldlM]
  constructor
  · intro each index below
    refine each _ index (List.range' (index + 1) (count - (index + 1))) ?_
    rw [List.range_eq_range', range'_eq_append_cons_iff, Nat.zero_add]
    exact ⟨⟨Nat.zero_le _, below⟩, List.range_eq_range', rfl⟩
  · intro each before index after split
    obtain ⟨rfl, below⟩ := eq_range_of_range_eq split
    exact each index below

theorem stays_forM_range' {check : Nat → Logged ι ε PUnit}
    {start length : Nat} :
    Stays allowed (forM (List.range' start length) check) ↔
      ∀ item, start ≤ item → item < start + length →
        (∀ earlier, start ≤ earlier → earlier < item →
          (check earlier).result = .ok ⟨⟩) → Stays allowed (check item) := by
  induction length generalizing start with
  | zero =>
      refine iff_of_true (stays_pure _) fun item lower upper => ?_
      omega
  | succ length ih =>
      rw [List.range'_succ, List.forM_cons, stays_bind, ih]
      constructor
      · rintro ⟨here, later⟩ item lower upper passed
        rcases Nat.eq_or_lt_of_le lower with rfl | less
        · exact here
        · refine later ⟨⟩ (passed start (Nat.le_refl _) less) item less
            (by omega) fun earlier earlierLower => passed earlier (by omega)
      · intro each
        refine ⟨each start (Nat.le_refl _) (by omega) fun earlier _ _ => by
          omega, fun _ taken item lower upper passed => ?_⟩
        refine each item (by omega) (by omega) fun earlier lower less => ?_
        rcases Nat.eq_or_lt_of_le lower with rfl | above
        · exact taken
        · exact passed earlier above less

end Stays

end Logged

end LinuxKernelDev
