/-
Recurrence/Proofs/Cursor/Reordered.lean

Included cursors in another order.

Where several included cursors have the same value, the one with the lowest place comes first, and
the others keep theirs waiting.  In which order the cursors stand thus decides which of them have
moved on.  It does not decide which values after the last one are left (`Merged.SameAhead`): a value
that is left twice is dropped the second time.

So one merged cursor may have to take out values that the other has dropped already
(`Merged.Queued.catchUp`), and then both find the same value.  A move keeps this up if every
included cursor drops exactly what is before the target (`Merged.SameAhead.keepsUp`).
-/
import Recurrence.Proofs.Cursor.ExcludedOrder

namespace Recurrence

namespace Merged

variable {ι : Type} {ops : Nat → CursorOps ι} {Left Barred : ι → Values → Prop}
  {Target Fits : Value → Prop} {m m' m₁ : Merged ι} {T T' : Nat → Values} {S : Values} {n : Nat}
  {u target : Value}

/-! ### Catching up -/

/-- Finitely many values that are left are not new. -/
theorem Queued.finite_old (hF : Sparse Fits) (h : Queued Left Fits m T fun _ => False)
    (hlast : ∀ k ∈ m.lastKey, ∃ v, Fits v ∧ v.key = k) (i : Nat) :
    {u | u ∈ T i ∧ ¬ m.IsNew u}.Finite := by
  cases hkey : m.lastKey with
  | none =>
    refine (Set.finite_empty (α := Value)).subset fun u hu => hu.2 ?_
    rintro k hk
    exact absurd (hkey.symm.trans hk) (by simp)
  | some k =>
    obtain ⟨v, hv, rfl⟩ := hlast k hkey
    refine (hF.finite (h.ascending i) (h.fits i) hv).subset fun u hu => ⟨hu.1, ?_⟩
    rw [hF.order u v (h.fits i u hu.1) hv, ← not_lt]
    intro hlt
    refine hu.2 fun k hk => ?_
    rwa [← Option.some.inj (hkey.symm.trans hk)]

/-- **Taking out what is not new**, a merged cursor comes to where the first of its queue is new. -/
theorem Queued.catchUp (hL : CursorLaws ops Left Target) (hF : Sparse Fits)
    (h : Queued Left Fits m T fun _ => False) (hpending : m.pending = none)
    (hlast : ∀ k ∈ m.lastKey, ∃ v, Fits v ∧ v.key = k) :
    ∃ included queue T', Leads ops m { m with included, queue } ∧
      Queued Left Fits { m with included, queue } T' (fun _ => False) ∧
      (∀ u, m.IsNew u → ((∃ i, u ∈ T' i) ↔ ∃ i, u ∈ T i)) ∧
      ∀ w queue', queue = w :: queue' → m.IsNew w.value := by
  -- on the number of values left that are not new
  induction hk : ∑ i ∈ Finset.range m.included.length, {u | u ∈ T i ∧ ¬ m.IsNew u}.ncard using
    Nat.strong_induction_on generalizing m T with
  | _ k ih =>
    cases hqueue : m.queue with
    | nil =>
      exact ⟨m.included, m.queue, T, .refl m, h, fun _ _ => Iff.rfl, fun w queue' heq =>
        absurd (hqueue.symm.trans heq) (by simp)⟩
    | cons w queue =>
      by_cases hnew : m.IsNew w.value
      · refine ⟨m.included, m.queue, T, .refl m, h, fun _ _ => Iff.rfl, fun w' queue' heq => ?_⟩
        obtain ⟨rfl, -⟩ := List.cons_eq_cons.mp (hqueue.symm.trans heq)
        exact hnew
      · obtain ⟨S, included, queue', hT, -, hfetch, hlength, hqueued⟩ :=
          h.takeFirst hL hF.order hqueue
        obtain ⟨k, hkey, hle⟩ : ∃ k, m.lastKey = some k ∧ w.value.key ≤ k := by
          simpa [IsNew] using hnew
        have hturn : Settles (fun n => m.turn (ops n))
            (.again { m with included, queue := queue' }) := by
          filter_upwards [hfetch] with n hn
          exact turn_of_old hpending hqueue hn hkey hle
        have hless := h.count_lt (h.finite_old hF hlast) (hqueue ▸ List.mem_cons_self) hT hnew
        rw [hk, ← hlength] at hless
        obtain ⟨included₂, queue₂, T₂, hleads, hqueued₂, hsame, hfirst⟩ :=
          ih _ hless hqueued hpending hlast rfl
        refine ⟨included₂, queue₂, T₂, (Leads.of_turn hturn).trans hleads, hqueued₂,
          fun u hu => ?_, hfirst⟩
        -- the value that is taken out is not new
        rw [hsame u hu, exists_mem_iff hT, or_iff_right]
        rintro rfl
        exact hnew hu

/-! ### The same values ahead -/

/-- Two merged cursors with the same new values left, in whatever cursors, and with the same
excluded cursors up to order. -/
structure SameAhead (Left Barred : ι → Values → Prop) (Fits : Value → Prop) (m m' : Merged ι)
    (T T' : Nat → Values) : Prop where
  queued : Queued Left Fits m T fun _ => False
  queued' : Queued Left Fits m' T' fun _ => False
  ahead : ∀ u, m.IsNew u → ((∃ i, u ∈ T i) ↔ ∃ i, u ∈ T' i)
  lastKey : m'.lastKey = m.lastKey
  last : ∀ k ∈ m.lastKey, ∃ v, Fits v ∧ v.key = k
  pending : m'.pending = m.pending
  excluded : m.excluded.Perm m'.excluded
  barred : ∀ x ∈ m.excluded, ∃ X, Barred x.cursor X

section

variable (hops : ∀ {j n : Nat}, j ≤ n → (ops j).Extends (ops n))

namespace SameAhead

theorem isNew_iff (h : SameAhead Left Barred Fits m m' T T') : m'.IsNew u ↔ m.IsNew u := by
  rw [IsNew, IsNew, h.lastKey]

/-- The second cursor takes out what is not new. -/
theorem catchUp (hL : CursorLaws ops Left Target) (hF : Sparse Fits)
    (h : SameAhead Left Barred Fits m m' T T') (hpending : m.pending = none) :
    ∃ m₂ T₂, Leads ops m' m₂ ∧ SameAhead Left Barred Fits m m₂ T T₂ ∧
      ∀ w queue, m₂.queue = w :: queue → m.IsNew w.value := by
  obtain ⟨included, queue, T₂, hleads, hqueued, hsame, hfirst⟩ :=
    h.queued'.catchUp hL hF (h.pending.trans hpending) (h.lastKey ▸ h.last)
  refine ⟨_, T₂, hleads, ⟨h.queued, hqueued, fun u hu => ?_, h.lastKey, h.last, h.pending,
    h.excluded, h.barred⟩, fun w queue' hw => h.isNew_iff.mp (hfirst w queue' hw)⟩
  rw [h.ahead u hu, hsame u (h.isNew_iff.mpr hu)]

/-- Where the first of both queues is new, it is the same value. -/
theorem first_eq (hL : CursorLaws ops Left Target) (hF : Sparse Fits)
    (h : SameAhead Left Barred Fits m m' T T') {w w' : Waiting} {queue queue' : List Waiting}
    (hqueue : m.queue = w :: queue) (hqueue' : m'.queue = w' :: queue') (hw : m.IsNew w.value)
    (hw' : m.IsNew w'.value) : w'.value = w.value := by
  obtain ⟨S, -, -, hT, hleast, -⟩ := h.queued.takeFirst hL hF.order hqueue
  obtain ⟨S', -, -, hT', hleast', -⟩ := h.queued'.takeFirst hL hF.order hqueue'
  obtain ⟨i, hi⟩ := (h.ahead _ hw').mpr ⟨w'.index, hT' ▸ Stream'.Seq.mem_cons _ _⟩
  obtain ⟨j, hj⟩ := (h.ahead _ hw).mp ⟨w.index, hT ▸ Stream'.Seq.mem_cons _ _⟩
  exact le_antisymm (hleast' j _ hj) (hleast i _ hi)

/-- Where a new value waits in the first cursor, one is left in the second. -/
theorem exists_queue (h : SameAhead Left Barred Fits m m' T T') {w : Waiting} {queue : List Waiting}
    (hqueue : m.queue = w :: queue) (hw : m.IsNew w.value) : ∃ w' queue', m'.queue = w' :: queue' := by
  obtain ⟨-, c, S, -, hT, -⟩ := h.queued.waiting w (hqueue ▸ List.mem_cons_self)
  obtain ⟨i, hi⟩ := (h.ahead _ hw).mp ⟨w.index, hT ▸ Stream'.Seq.mem_cons _ _⟩
  obtain ⟨x, hx, -⟩ := h.queued'.exists_waiting hi
  exact List.exists_cons_of_ne_nil (List.ne_nil_of_mem hx)

/-- Where nothing waits in the first cursor, nothing new waits in the second. -/
theorem queue_eq_nil (h : SameAhead Left Barred Fits m m' T T') (hqueue : m.queue = [])
    (hfirst : ∀ w queue, m'.queue = w :: queue → m.IsNew w.value) : m'.queue = [] := by
  by_contra hne
  obtain ⟨w, queue, hw⟩ := List.exists_cons_of_ne_nil hne
  obtain ⟨-, c, S, -, hT, -⟩ := h.queued'.waiting w (hw ▸ List.mem_cons_self)
  obtain ⟨i, hi⟩ := (h.ahead _ (hfirst w queue hw)).mpr ⟨w.index, hT ▸ Stream'.Seq.mem_cons _ _⟩
  obtain ⟨x, hx, -⟩ := h.queued.exists_waiting hi
  exact absurd (hqueue ▸ hx) List.not_mem_nil

/-- The first cursor may take out a value that is not new. -/
theorem takeOld (h : SameAhead Left Barred Fits m m' T T') {i : Nat} {v : Value}
    {included : List ι} {queue : List Waiting} (hT : T i = .cons v S) (hold : ¬ m.IsNew v)
    (hqueued : Queued Left Fits { m with included, queue } (Function.update T i S)
      fun _ => False) :
    SameAhead Left Barred Fits { m with included, queue } m' (Function.update T i S) T' := by
  refine ⟨hqueued, h.queued', fun u hu => ?_, h.lastKey, h.last, h.pending, h.excluded, h.barred⟩
  rw [← h.ahead u hu, exists_mem_iff hT, or_iff_right]
  rintro rfl
  exact hold hu

/-- Both cursors may take out the same new value, whether or not it is held then. -/
theorem takeNew (h : SameAhead Left Barred Fits m m' T T') {i j : Nat} {v : Value} {S' : Values}
    {included included' : List ι} {queue queue' : List Waiting} {xs ys : List (Excluded ι)}
    {p : Option Value} (hT : T i = .cons v S) (hT' : T' j = .cons v S') (hfits : Fits v)
    (hnew : m.IsNew v)
    (hqueued : Queued Left Fits { m with included, queue } (Function.update T i S) fun _ => False)
    (hqueued' : Queued Left Fits { m' with included := included', queue := queue' }
      (Function.update T' j S') fun _ => False)
    (hperm : xs.Perm ys) (hbarred : ∀ x ∈ xs, ∃ X, Barred x.cursor X) :
    SameAhead Left Barred Fits ⟨included, xs, queue, some v.key, p⟩
      ⟨included', ys, queue', some v.key, p⟩ (Function.update T i S) (Function.update T' j S') := by
  refine ⟨hqueued.frame rfl rfl, hqueued'.frame rfl rfl, fun u hu => ?_, rfl, ?_, rfl, hperm,
    hbarred⟩
  · -- what comes after the value is left on both sides or on none
    have hlt : v.key < u.key := hu _ rfl
    have hne : u ≠ v := by
      rintro rfl
      exact lt_irrefl _ hlt
    have hleft := h.ahead u fun k hk => (hnew k hk).trans hlt
    rwa [exists_mem_iff hT, exists_mem_iff hT', or_iff_right hne, or_iff_right hne] at hleft
  · rintro _ ⟨⟩
    exact ⟨v, hfits, rfl⟩

include hops in
/-- **New cursors** over the same members in another order. -/
theorem create (hL : CursorLaws ops Left Target) (hE : RovingLaws ops Barred)
    {included included' excluded excluded' : List ι} {Ss : List Values}
    (hleft : List.Forall₂ Left included Ss) (hfits : ∀ S ∈ Ss, ∀ v ∈ S, Fits v)
    (hbarred : ∀ c ∈ excluded, ∃ X, Barred c X) (hincluded : included.Perm included')
    (hexcluded : excluded.Perm excluded')
    (hn : Merged.create (ops n) included excluded = some (.ok m)) :
    ∃ m' T T', Settles (fun n => Merged.create (ops n) included' excluded') (.ok m') ∧
      SameAhead Left Barred Fits m m' T T' := by
  obtain ⟨m₀, xs, hfetch, hheads, rfl⟩ := Merged.create_eq_ok_iff.mp hn
  obtain ⟨ys, hheads', hperm⟩ := Merged.withHeads_perm hexcluded hheads
  obtain ⟨Ss', hleft', hSs⟩ := List.perm_comp_forall₂ hincluded.symm hleft
  obtain ⟨cs, queue, T, hfetched, hqueued, -, hmem⟩ := Queued.fetchFirst hL hleft hfits
  obtain ⟨cs', queue', T', hfetched', hqueued', -, hmem'⟩ :=
    Queued.fetchFirst hL hleft' fun S hS => hfits S (hSs.mem_iff.mp hS)
  have hpatient : Patient fun n => Merged.refillAll (ops n) (List.range included.length)
      { included, excluded := [] } := fun hle hb => (hops hle).refillAll hb
  have hpatient' : Patient fun n => Merged.withHeads (ops n) excluded' :=
    fun hle hb => (hops hle).withHeads hb
  obtain ⟨-, rfl⟩ := Prod.mk.inj (hpatient.eq_of_settles hfetched hfetch)
  refine ⟨⟨cs', ys, queue', none, none⟩, T, T', ?_, hqueued.frame rfl rfl, hqueued'.frame rfl rfl,
    fun u _ => ?_, rfl, ?_, rfl, hperm, hE.withHeads hops hbarred hheads⟩
  · filter_upwards [hfetched', hpatient'.settles hheads'] with n hn hn'
    exact Merged.create_eq_ok_iff.mpr ⟨_, ys, hn, hn', rfl⟩
  · simp only [hmem, hmem', hSs.mem_iff]
  · rintro k hk
    exact absurd hk (by simp)

include hops in
/-- **Each turn is followed.** -/
theorem follows (hL : CursorLaws ops Left Target) (hF : Sparse Fits) (hE : RovingLaws ops Barred)
    (h : SameAhead Left Barred Fits m m' T T')
    {t : Turn (Merged ι) (Except SeriesError Bool × Merged ι)} (ht : m.turn (ops n) = some t) :
    FollowsTurn ops (fun m m' => ∃ T T', SameAhead Left Barred Fits m m' T T') m m' t := by
  cases hpending : m.pending with
  | some p =>
    have hpending' := h.pending.trans hpending
    simp only [Merged.turn, hpending] at ht
    refine .inr (.inl ⟨true, m', (Option.some.inj ht).symm, .finish ?_, T, T', h⟩)
    filter_upwards with n
    simp only [Merged.turn, hpending']
  | none =>
    obtain ⟨m₂, T₂, hleads, h₂, hfirst⟩ := h.catchUp hL hF hpending
    have hpending₂ := h₂.pending.trans hpending
    cases hqueue : m.queue with
    | nil =>
      have hqueue₂ : m₂.queue = [] := h₂.queue_eq_nil hqueue hfirst
      simp only [Merged.turn, hpending, hqueue] at ht
      refine .inr (.inl ⟨false, m₂, (Option.some.inj ht).symm, hleads _ (.finish ?_), T, T₂, h₂⟩)
      filter_upwards with n
      simp only [Merged.turn, hpending₂, hqueue₂]
    | cons w queue =>
      obtain ⟨S, included, queue', hT, -, hsettles, -, hqueued⟩ :=
        h.queued.takeFirst hL hF.order hqueue
      have hfits : Fits w.value := h.queued.fits w.index _ (hT ▸ Stream'.Seq.mem_cons _ _)
      obtain ⟨a, m₁, hfetch, hout⟩ := turn_cases hpending hqueue ht
      have hpatient : Patient fun n => { m with queue }.refill (ops n) w.index := fun hle hb =>
        (hops hle).refill hb
      obtain ⟨rfl, rfl⟩ := Prod.mk.inj (hpatient.eq_of_settles hsettles hfetch)
      obtain ⟨e, he, -⟩ | ⟨-, ⟨hold, rfl⟩ | ⟨hnew, r, xs, hasked, hout⟩⟩ := hout
      · exact absurd he (by simp)
      · -- a value that is not new is dropped, and the second cursor waits
        exact .inl ⟨_, m', rfl, .refl m', _, T', h.takeOld hT hold hqueued⟩
      · obtain ⟨hbarred, hfails⟩ := hE.excludes hops h.barred hasked
        obtain ⟨e, m₃, rfl, rfl⟩ | ⟨found, rfl, rfl⟩ := hout
        · exact .inr (.inr ⟨e, m₃, rfl, hfails e rfl⟩)
        · -- both take out the same new value and ask the same excluded cursors
          have hnew : m.IsNew w.value := hnew
          obtain ⟨w₂, queue₂, hqueue₂⟩ := h₂.exists_queue hqueue hnew
          have heq := h₂.first_eq hL hF hqueue hqueue₂ hnew (hfirst w₂ queue₂ hqueue₂)
          obtain ⟨S₂, included₂, queue₂', hT₂, -, hsettles₂, -, hqueued₂⟩ :=
            h₂.queued'.takeFirst hL hF.order hqueue₂
          rw [heq] at hT₂
          obtain ⟨ys, hasked', hperm⟩ := Merged.excludes_perm h₂.excluded hasked
          have hpatient' : Patient fun n => Merged.excludes (ops n) w.value m₂.excluded :=
            fun hle hb => (hops hle).excludes hb
          refine .inl ⟨_, ⟨included₂, ys, queue₂', some w.value.key,
              if found then m.pending else some w.value⟩, rfl,
            hleads.trans (.of_turn ?_), _, _,
            h₂.takeNew hT hT₂ hfits hnew hqueued hqueued₂ hperm hbarred⟩
          filter_upwards [hsettles₂, hpatient'.settles hasked'] with n hn hn'
          rw [← heq, ← h₂.pending]
          refine turn_of_new hpending₂ hqueue₂ hn ?_ (heq ▸ hn')
          exact h₂.isNew_iff.mpr (hfirst w₂ queue₂ hqueue₂)

/-- **A move is followed** if the included cursors drop exactly what is before the target. -/
theorem advanceTo (hL : CursorLaws ops Left Target)
    (hkey : ∀ target, Target target → ∀ v, Fits v → (v < target ↔ v.key < target.key))
    (h : SameAhead Left Barred Fits m m' T T') (htarget : Target target) :
    ∃ m₁ m₁' T₁ T₁', Settles (fun n => m.advanceTo (ops n) target) (.ok (), m₁) ∧
      Settles (fun n => m'.advanceTo (ops n) target) (.ok (), m₁') ∧
      SameAhead Left Barred Fits m₁ m₁' T₁ T₁' := by
  by_cases hkeeps : ∃ p, m.pending = some p ∧ ¬ p < target
  · obtain ⟨p, hp, hle⟩ := hkeeps
    exact ⟨m, m', T, T', .of_forall fun n => advanceTo_of_held (ops n) hp hle,
      .of_forall fun n => advanceTo_of_held (ops n) (h.pending.trans hp) hle, h⟩
  · have hdrops : ∀ p ∈ m.pending, p < target := by
      intro p hp
      by_contra hle
      exact hkeeps ⟨p, hp, hle⟩
    obtain ⟨included, queue, T₁, hmoved, hqueued, hT⟩ :=
      h.queued.advanceTo hL htarget (hkey target htarget) hdrops
    obtain ⟨included', queue', T₁', hmoved', hqueued', hT'⟩ :=
      h.queued'.advanceTo hL htarget (hkey target htarget) (h.pending ▸ hdrops)
    refine ⟨_, _, T₁, T₁', hmoved, hmoved', hqueued, hqueued', fun u hu => ?_, h.lastKey, h.last,
      rfl, h.excluded, h.barred⟩
    have hahead := h.ahead u hu
    simp only [fun i => (hT i).mem_iff (h.queued.ascending i) (u := u),
      fun i => (hT' i).mem_iff (h.queued'.ascending i) (u := u), exists_and_right, hahead]

include hops in
/-- **Included cursors in another order** answer all calls alike, if moves drop exactly what is
before their targets. -/
theorem keepsUp (hL : CursorLaws ops Left Target) (hF : Sparse Fits) (hE : RovingLaws ops Barred)
    (hkey : ∀ target, Target target → ∀ v, Fits v → (v < target ↔ v.key < target.key)) :
    KeepsUp ops Target fun m m' => ∃ T T', SameAhead Left Barred Fits m m' T T' where
  pending := fun ⟨_, _, h⟩ => h.pending
  take := fun ⟨T, T', h⟩ => ⟨T, T', h.queued.frame rfl rfl, h.queued'.frame rfl rfl, h.ahead,
    h.lastKey, h.last, rfl, h.excluded, h.barred⟩
  turn := fun ⟨_, _, h⟩ ht => h.follows hops hL hF hE ht
  advanceTo {m m' n target m₁} h htarget hn := by
    obtain ⟨T, T', h⟩ := h
    obtain ⟨m₂, m₁', T₁, T₁', hmoved, hmoved', h₁⟩ := h.advanceTo hL hkey htarget
    have hpatient : Patient fun n => m.advanceTo (ops n) target := fun hle hb =>
      (hops hle).mergedAdvanceTo hb
    obtain ⟨-, rfl⟩ := Prod.mk.inj (hpatient.eq_of_settles hmoved hn)
    exact ⟨m₁', hmoved', T₁, T₁', h₁⟩

end SameAhead

end

end Merged

end Recurrence
