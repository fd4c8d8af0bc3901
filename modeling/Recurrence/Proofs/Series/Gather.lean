/-
Recurrence/Proofs/Series/Gather.lean

Gathering the members of one period.

A selection asks the chain for one candidate after the other until the first of a later
period turns up.  By then it has seen the whole group of the period, and has kept as much
of it as the positions need (`Course.Reached.gather`).  If the years give up instead, the
rest of the group lies in later years, if there is any (`Course.CutOff`).  The candidate that ends
a period is held back; it is the first of the next one (`Selection.Front.collect`).
-/
import Recurrence.Proofs.Groups
import Recurrence.Proofs.Series.Patience

namespace Recurrence

open Selection (Gathering Period gatherTurn)

/-! ### Seeing and keeping -/

namespace Selection

variable {σ α ε κ : Type} {keep : Option Nat} {seen : List α} {g : Gathering σ α}

/-- A gathering after one more candidate of its period: it is kept if there is room. -/
def Gathering.see (g : Gathering σ α) (v : α) (src : σ) : Gathering σ α :=
  ⟨src, if g.room = some 0 then g.kept else v :: g.kept, g.room.map fun m => m - 1⟩

theorem gatherTurn_same [DecidableEq κ] {next : NextOf σ α ε} {key : α → κ} {k : κ} {v : α} {src : σ}
    (hn : next g.source = some (.ok (some v), src)) (hv : key v = k) :
    gatherTurn next key k g = some (.again (g.see v src)) := by
  obtain ⟨source, kept, room⟩ := g
  match room with
  | none => simp [gatherTurn, hn, hv, Gathering.see]
  | some 0 => simp [gatherTurn, hn, hv, Gathering.see]
  | some (m + 1) => simp [gatherTurn, hn, hv, Gathering.see]

/-- A gathering has kept what is to be kept of the candidates that it has seen. -/
structure Keeps (g : Gathering σ α) (keep : Option Nat) (seen : List α) : Prop where
  kept_eq : g.kept.reverse = kept keep seen
  room_eq : g.room = keep.map fun m => m - seen.length

/-- The first candidate of a period is kept. -/
theorem keeps_first {ps : List Int} (hps : ps ≠ []) {v : α} {src : σ} :
    Keeps ⟨src, [v], (keptOfPeriod ps).map fun m => m - 1⟩ (keptOfPeriod ps) [v] := by
  refine ⟨?_, rfl⟩
  cases hkeep : keptOfPeriod ps with
  | none => rfl
  | some m =>
    have := keptOfPeriod_pos hkeep hps
    exact (List.take_of_length_le (show [v].length ≤ m from this)).symm

theorem Keeps.see (h : Keeps g keep seen) (v : α) (src : σ) :
    Keeps (g.see v src) keep (seen ++ [v]) := by
  obtain ⟨source, kept', room⟩ := g
  obtain ⟨hkept, hroom⟩ := h
  dsimp only at hkept hroom
  subst hroom
  cases keep with
  | none => exact ⟨by simp [Gathering.see, hkept, kept], rfl⟩
  | some m =>
    constructor
    · rcases Nat.lt_or_ge seen.length m with hlt | hge
      · have hroom : m - seen.length ≠ 0 := by omega
        simp only [kept] at hkept ⊢
        rw [List.take_of_length_le hlt.le] at hkept
        simp only [Gathering.see, Option.map_some, Option.some.injEq, hroom, if_false,
          List.reverse_cons, hkept]
        rw [List.take_of_length_le (by rw [List.length_append]; exact hlt)]
      · have hroom : m - seen.length = 0 := by omega
        simp only [Gathering.see, Option.map_some, hroom, if_true, hkept, kept]
        rw [List.take_append_of_le_length hge]
    · simp only [Gathering.see, Option.map_some, List.length_append, List.length_singleton,
        Option.some.injEq]
      omega

end Selection

namespace Course

variable {K : Course} {N : Value → Int} {κ : Type} {key : Value → κ}
  {keep : Option Nat} {base : Int} {c : Candidates} {u v w : Value} {R : Value → Prop}

/-! ### Reaching a member -/

/-- The chain has just come to a member. -/
structure Reached (K : Course) (base : Int) (c : Candidates) (v : Value) : Prop where
  member : K.Member v
  year_eq : c.fields.year = v.date.year
  awaits : K.Awaits base c (v < ·)

/-- The next candidate is a member that the chain has come to, or the years have given up. -/
theorem Awaits.reach (hK : K.Begins) (hcredited : K.credited = none) (h : K.Awaits base c R) :
    ∃ a c', Settles (fun n => c.next n) (a, c') ∧
      ((∃ v, a = .ok (some v) ∧ K.Reached base c' v ∧ IsLeast {w | K.Member w ∧ R w} v) ∨
        a = .ok none ∧ c'.gaveUp = true ∧ K.Exhausted base fun w => K.Member w ∧ R w) := by
  obtain ⟨⟨a, c'⟩, hsettles, hnext⟩ := h.next hK
  refine ⟨a, c', hsettles, ?_⟩
  rcases hnext with ⟨v, rfl, hleast, hyear, -, hawaits⟩ | ⟨rfl, hgave, hex⟩
  · rw [baseAfter, hcredited] at hawaits
    exact .inl ⟨v, rfl, ⟨hleast.1.1, hyear, hawaits⟩, hleast⟩
  · exact .inr ⟨rfl, hgave, hex⟩

/-- The budget has lasted to the member that the chain has come to. -/
theorem Reached.lasts (hK : K.Begins) (h : K.Reached base c v) : K.Lasts base v := by
  obtain ⟨last, hholds, -⟩ := h.awaits
  have := hK.two_le_size
  exact hholds.lasts (by omega) h.year_eq

/-- Filling the budget up changes nothing but the account. -/
theorem Reached.credit (hK : K.Begins) (h : K.Reached base c v) :
    K.Reached v.date.year (c.credit 0) v where
  member := h.member
  year_eq := h.year_eq
  awaits := h.year_eq ▸ h.awaits.credit hK

/-- A member that no other member of its period comes before. -/
def First (K : Course) (N : Value → Int) (v : Value) : Prop :=
  ∀ w, K.Member w → w < v → N w < N v

/-- The members of the period of `v` up to `u`. -/
structure Seen (K : Course) (N : Value → Int) (v u : Value) (seen : List Value) : Prop where
  ascending : seen.Pairwise (· < ·)
  mem_iff : ∀ w, w ∈ seen ↔ K.Member w ∧ N w = N v ∧ w ≤ u

theorem Reached.seen (h : K.Reached base c v) (hfirst : K.First N v) : K.Seen N v v [v] where
  ascending := List.pairwise_singleton _ _
  mem_iff w := by
    rw [List.mem_singleton]
    constructor
    · rintro rfl
      exact ⟨h.member, rfl, le_rfl⟩
    · rintro ⟨hw, hn, hle⟩
      refine hle.eq_or_lt.resolve_right fun hlt => ?_
      have := hfirst w hw hlt
      omega

/-- The next member is seen too if it lies in the same period. -/
theorem Seen.snoc {seen : List Value} (h : K.Seen N v u seen)
    (hleast : IsLeast {w | K.Member w ∧ u < w} w)
    (hn : N w = N v) : K.Seen N v w (seen ++ [w]) where
  ascending := by
    rw [List.pairwise_append]
    refine ⟨h.ascending, List.pairwise_singleton _ _, fun x hx y hy => ?_⟩
    rw [List.mem_singleton.mp hy]
    exact ((h.mem_iff x).mp hx).2.2.trans_lt hleast.1.2
  mem_iff x := by
    rw [List.mem_append, List.mem_singleton, h.mem_iff]
    constructor
    · rintro (⟨hx, hxn, hle⟩ | rfl)
      · exact ⟨hx, hxn, hle.trans hleast.1.2.le⟩
      · exact ⟨hleast.1.1, hn, le_rfl⟩
    · rintro ⟨hx, hxn, hle⟩
      rcases le_or_gt x u with hxu | hux
      · exact .inl ⟨hx, hxn, hxu⟩
      · exact .inr (le_antisymm hle (hleast.2 ⟨hx, hux⟩))

/-- **A period has been seen in full** once the next member lies in a later one, and this
member is the first of all later periods. -/
theorem Seen.full {seen : List Value} (hd : K.Divides N key) (h : K.Seen N v u seen) (hu : K.Member u)
    (hun : N u = N v) (hleast : IsLeast {w | K.Member w ∧ u < w} w) (hn : N w ≠ N v) :
    K.group N (N v) = seen ∧ IsLeast {x | K.Member x ∧ N v < N x} w := by
  have hlater : N v < N w := by
    have := hd.mono u w hu hleast.1.1 hleast.1.2.le
    omega
  have hbeyond : ∀ x, K.Member x → u < x → N v < N x := fun x hx hlt =>
    hlater.trans_le (hd.mono w x hleast.1.1 hx (hleast.2 ⟨hx, hlt⟩))
  refine ⟨listing_eq ⟨h.ascending, fun x => ?_⟩, ⟨hleast.1.1, hlater⟩, fun x hx => ?_⟩
  · rw [h.mem_iff]
    refine and_congr_right fun hx => and_iff_left_of_imp fun hxn => ?_
    by_contra hlt
    have := hbeyond x hx (not_le.mp hlt)
    omega
  · refine hleast.2 ⟨hx.1, lt_of_not_ge fun hle => ?_⟩
    have := hd.mono x u hx.1 hu hle
    have := hx.2
    omega

/-- The first member of all later periods is the first of its own. -/
theorem first_of_isLeast {n : Int} (h : IsLeast {x | K.Member x ∧ n < N x} w) : K.First N w := by
  intro x hx hlt
  have hle : N x ≤ n := by
    by_contra hn
    exact absurd (h.2 ⟨hx, not_le.mp hn⟩) hlt.not_ge
  exact hle.trans_lt h.1.2

/-! ### Giving up -/

/-- The years have given up in the period of `v`, when its members had been seen up to `u`. -/
structure CutOff (K : Course) (N : Value → Int) (base : Int) (v u : Value) (seen : List Value) :
    Prop where
  seen : K.Seen N v u seen
  member : K.Member u
  period : N u = N v
  lasts : K.Lasts base u
  exhausted : K.Exhausted base fun w => K.Member w ∧ u < w

theorem CutOff.mem {seen : List Value} (h : K.CutOff N base v u seen) {x : Value} (hx : x ∈ seen) :
    K.Member x ∧ N x = N v :=
  ⟨((h.seen.mem_iff x).mp hx).1, ((h.seen.mem_iff x).mp hx).2.1⟩

/-- **What is picked from a period that has been cut off** is selected, unless the period goes on in
a later year. -/
theorem CutOff.selected_or (hK : K.Begins) {ps : List Int} {seen : List Value}
    (h : K.CutOff N base v u seen) (hbudget : 1 ≤ K.blueprint.years.budget) {x : Value}
    (hx : x ∈ picked ps seen) :
    K.Selected N ps x ∨ ∃ w, K.Member w ∧ N w = N x ∧ x.date.year < w.date.year := by
  obtain ⟨hxm, hxn, hxu⟩ := (h.seen.mem_iff x).mp (mem_of_mem_picked hx)
  by_cases hmore : ∃ w, (K.Member w ∧ u < w) ∧ N w = N v
  · obtain ⟨w, hw, hwn⟩ := hmore
    have hyear := h.exhausted.year_lt hK hbudget h.member.1 h.lasts hw
    exact .inr ⟨w, hw.1, hwn.trans hxn.symm, (Value.year_le_of_le hxu).trans_lt hyear⟩
  · -- the whole period has been seen
    have hgroup : K.group N (N v) = seen := by
      refine listing_eq ⟨h.seen.ascending, fun y => ?_⟩
      rw [h.seen.mem_iff]
      refine and_congr_right fun hy => and_iff_left_of_imp fun hyn => ?_
      exact not_lt.mp fun hlt => hmore ⟨y, ⟨hy, hlt⟩, hyn⟩
    rw [← hgroup, ← hxn] at hx
    exact .inl hx

/-- As many years as the budget holds have been spent on one period: the chain goes through them one
after another and leaves none out, and whatever is selected from another period either lies before
them and is not awaited any more, or it lies behind them and still is. -/
structure SpentOn (K : Course) (N : Value → Int) (ps : List Int) (R : Value → Prop)
    (years : List Int) (n : Int) : Prop where
  length_eq : (years.length : Int) = K.blueprint.years.budget
  ascending : years.Pairwise (· < ·)
  wanted : ∀ y ∈ years, K.blueprint.years.Wants K.blueprint.start y
  unbroken : ∀ x ∈ years, ∀ y ∈ years, ∀ z, K.blueprint.years.Wants K.blueprint.start z →
    x ≤ z → z ≤ y → z ∈ years
  aside : ∀ v, K.Selected N ps v → N v = n ∨ (¬ R v ∧ ∀ y ∈ years, v.date.year < y) ∨
    R v ∧ ∀ y ∈ years, y < v.date.year

/-- **Where the years give up**, they have spent their budget on the period that is being gathered. -/
theorem Exhausted.spentOn (hK : K.Begins) (hbudget : 1 ≤ K.blueprint.years.budget) {ps : List Int}
    {n : Int} {left : Value → Prop} (h : K.Exhausted base left)
    (hgone : ∀ v, K.Selected N ps v → ¬ R v → v.date.year ≤ base)
    (hperiod : ∀ v, K.Selected N ps v → R v → ¬ left v → N v = n) :
    ∃ years, K.SpentOn N ps R years n ∧
      ∀ u, K.Builds u → K.Lasts base u → ∃ y ∈ years, u.date.year ≤ y := by
  obtain ⟨years, hlen, hasc, hyears, hleft⟩ := h
  refine ⟨years, ⟨hlen, hasc, fun y hy => (hyears y hy).1, fun x hx y hy z hz hxz hzy =>
    (hyears y hy).2.2 z hz ((hyears x hx).2.1.trans_le hxz) hzy, fun v hv => ?_⟩, fun u hu hlasts => ?_⟩
  · by_cases hR : R v
    · by_cases hvleft : left v
      · exact .inr (.inr ⟨hR, hleft v hvleft⟩)
      · exact .inl (hperiod v hv hR hvleft)
    · exact .inr (.inl ⟨hR, fun y hy => (hgone v hv hR).trans_lt (hyears y hy).2.1⟩)
  · by_contra hlate
    push Not at hlate
    have hex : K.Exhausted base (· = u) := by
      refine ⟨years, hlen, hasc, hyears, ?_⟩
      rintro _ rfl
      exact hlate
    exact hex.not_lasts hK hbudget hu rfl hlasts

theorem CutOff.spentOn (hK : K.Begins) (hd : K.Divides N key)
    (hbudget : 1 ≤ K.blueprint.years.budget) {ps : List Int} {seen : List Value}
    (h : K.CutOff N base v u seen) (hv : K.Member v)
    (hgone : ∀ x, K.Selected N ps x → ¬ R x → x.date.year ≤ base)
    (hbehind : ∀ x, K.Selected N ps x → R x → v ≤ x) :
    ∃ years, K.SpentOn N ps R years (N v) ∧ ∀ x ∈ seen, ∃ y ∈ years, x.date.year ≤ y := by
  obtain ⟨years, hspent, hlast⟩ := h.exhausted.spentOn hK hbudget hgone
    (n := N v) fun x hx hR hleft => by
      have hxm := hx.member hd hK
      have hxu : x ≤ u := not_lt.mp fun hlt => hleft ⟨hxm, hlt⟩
      exact le_antisymm ((hd.mono x u hxm h.member hxu).trans_eq h.period)
        (hd.mono v x hv hxm (hbehind x hx hR))
  obtain ⟨y, hy, hle⟩ := hlast u h.member.1 h.lasts
  exact ⟨years, hspent, fun x hx =>
    ⟨y, hy, (Value.year_le_of_le ((h.seen.mem_iff x).mp hx).2.2).trans hle⟩⟩

/-! ### Gathering -/

/-- What gathering the period of `v` comes to: its group, as far as it is kept, and the first
member of the next period; or a part of its group, when the years have given up. -/
def Gathers (K : Course) (N : Value → Int) (base : Int) (keep : Option Nat) (v : Value)
    (p : Period Candidates Value) : Prop :=
  (∃ w, p.following = some w ∧ p.candidates = kept keep (K.group N (N v)) ∧
      K.Reached base p.source w ∧ IsLeast {x | K.Member x ∧ N v < N x} w) ∨
    p.following = none ∧ ∃ u seen, p.candidates = kept keep seen ∧ K.CutOff N base v u seen

/-- Gathering the period of `v` has come to its member `u`: the members up to `u` have been seen, and
the period lasts for at most `k` seconds more. -/
structure Midway (K : Course) (N : Value → Int) (base : Int) (keep : Option Nat) (v : Value) (k : Nat)
    (g : Gathering Candidates Value) (u : Value) (seen : List Value) : Prop where
  keeps : Selection.Keeps g keep seen
  seen : K.Seen N v u seen
  reached : K.Reached base g.source u
  period : N u = N v
  close : v.instant + 367 * 86400 - u.instant ≤ k

/-- **A turn of gathering** sees the next member of the period, or the period is complete, or the
years have given up. -/
theorem Midway.turn [DecidableEq κ] (hK : K.Begins) (hcredited : K.credited = none)
    (hd : K.Divides N key) (hv : K.Member v) {k : Nat} {g : Gathering Candidates Value} {u : Value}
    {seen : List Value} (h : K.Midway N base keep v k g u seen) :
    Progresses (fun n g => gatherTurn (Candidates.next n) key (key v) g)
      (fun k g => ∃ u seen, K.Midway N base keep v k g u seen)
      (fun b => ∃ p, b.1 = .ok p ∧ K.Gathers N base keep v p) k g := by
  have hclose := h.close
  obtain ⟨a, c', hnext, ⟨w, rfl, hreached, hleast⟩ | ⟨rfl, -, hex⟩⟩ :=
    h.reached.awaits.reach hK hcredited
  · have hw := hreached.member
    by_cases hkey : key w = key v
    · have hn : N w = N v := (hd.key_iff w v hw hv).mp hkey
      have hshort := hd.short v w hv hw hn.symm
      have hlater := (Value.lt_iff_instant (hK.isReal h.reached.member.1) (hK.isReal hw.1)
        (h.reached.member.1.hasTime.trans hw.1.hasTime.symm)).mp hleast.1.2
      refine .inr ⟨g.see w c', (v.instant + 367 * 86400 - w.instant).toNat, ?_, by omega, w, _,
        h.keeps.see w c', h.seen.snoc hleast hn, hreached, hn, by omega⟩
      filter_upwards [hnext] with n hn
      exact Selection.gatherTurn_same hn hkey
    · have hn : N w ≠ N v := fun hn => hkey ((hd.key_iff w v hw hv).mpr hn)
      obtain ⟨hfull, hleast'⟩ := h.seen.full hd h.reached.member h.period hleast hn
      refine .inl ⟨(.ok ⟨c', g.kept.reverse, some w⟩, c'), ?_, _, rfl,
        .inl ⟨w, rfl, ?_, hreached, hleast'⟩⟩
      · filter_upwards [hnext] with n hn
        simp only [gatherTurn, hn, ne_eq, hkey, not_false_eq_true, if_true]
      · rw [hfull]
        exact h.keeps.kept_eq
  · refine .inl ⟨(.ok ⟨c', g.kept.reverse, none⟩, c'), ?_, _, rfl, .inr ⟨rfl, u, seen,
      h.keeps.kept_eq, h.seen, h.reached.member, h.period, h.reached.lasts hK, hex⟩⟩
    filter_upwards [hnext] with n hn
    simp only [gatherTurn, hn]

/-- **Gathering** goes on until a candidate of another period turns up. -/
theorem Reached.gather [DecidableEq κ] (hK : K.Begins) (hcredited : K.credited = none)
    (hd : K.Divides N key)
    (h : K.Reached base c v) (hfirst : K.First N v) {g : Gathering Candidates Value}
    (hsource : g.source = c) (hkeeps : Selection.Keeps g keep [v]) :
    ∃ p c', Settles (fun n => loop (gatherTurn (Candidates.next n) key (key v)) n g) (.ok p, c') ∧
      K.Gathers N base keep v p := by
  have hbegins : K.Midway N base keep v (367 * 86400) g v [v] :=
    ⟨hkeeps, h.seen hfirst, hsource ▸ h, rfl, by omega⟩
  -- each candidate of the period lies closer to the end of it
  obtain ⟨⟨_, c'⟩, hsettles, p, rfl, hgathers⟩ :=
    loop_settles (Selection.patient_gatherTurn patient_nextCandidate _)
      (fun k g => ∃ u seen, K.Midway N base keep v k g u seen)
      _ (fun _ _ ⟨_, _, hmidway⟩ => hmidway.turn hK hcredited hd h.member) ⟨v, [v], hbegins⟩
  exact ⟨p, c', hsettles, hgathers⟩

end Course

/-! ### Collecting a period -/

namespace Selection

variable {K : Course} {N : Value → Int} {κ : Type} {key : Value → κ} {base : Int}
  {s : Selection Candidates Value} {U : Value → Prop}

/-- The members with `U` have not been gathered: the first of them is held back and begins a
period, or nothing has been gathered at all. -/
inductive Front (K : Course) (N : Value → Int) (base : Int) (s : Selection Candidates Value)
    (U : Value → Prop) : Prop
  | fresh (heldBack : s.heldBack = none) (awaits : K.Awaits base s.source U)
      (all : ∀ w, K.Member w → U w)
  | held (v : Value) (heldBack : s.heldBack = some v) (reached : K.Reached base s.source v)
      (first : K.First N v) (behind : ∀ w, K.Member w → (U w ↔ v ≤ w))

theorem Front.not_gaveUp (hK : K.Begins) (h : s.Front K N base U) : s.source.gaveUp = false := by
  cases h with
  | fresh _ awaits _ => exact awaits.not_gaveUp hK
  | held _ _ reached _ _ => exact reached.awaits.not_gaveUp hK

/-- The first candidate of a period, or the years have given up. -/
theorem Front.first (hK : K.Begins) (hcredited : K.credited = none) (h : s.Front K N base U) :
    ∃ a c, Settles (fun n => s.first (Candidates.next n)) (a, c) ∧
      ((∃ v, a = .ok (some v) ∧ K.Reached base c v ∧ K.First N v ∧
          ∀ w, K.Member w → (U w ↔ v ≤ w)) ∨
        a = .ok none ∧ c.gaveUp = true ∧ K.Exhausted base K.Member) := by
  unfold Selection.first
  cases h with
  | fresh heldBack awaits all =>
    rw [heldBack]
    obtain ⟨a, c, hnext, ⟨v, rfl, hreached, hleast⟩ | ⟨rfl, hgave, hex⟩⟩ :=
      awaits.reach hK hcredited
    · have hall : ∀ w, K.Member w → v ≤ w := fun w hw => hleast.2 ⟨hw, all w hw⟩
      exact ⟨_, c, hnext, .inl ⟨v, rfl, hreached, fun w hw hlt => absurd hlt (hall w hw).not_gt,
        fun w hw => iff_of_true (all w hw) (hall w hw)⟩⟩
    · exact ⟨_, c, hnext, .inr ⟨rfl, hgave, hex.mono fun w hw => ⟨hw, all w hw⟩⟩⟩
  | held v heldBack reached first behind =>
    rw [heldBack]
    exact ⟨_, _, settles_const _, .inl ⟨v, rfl, reached, first, behind⟩⟩

/-- What collecting a period comes to: there is none; or its group, as far as the positions
need it, with the first member of the next period held back; or a part of its group. -/
def Collects (K : Course) (N : Value → Int) (base : Int) (s : Selection Candidates Value)
    (U : Value → Prop) (found : List Value) (s' : Selection Candidates Value) : Prop :=
  (∃ c, found = [] ∧ s' = { s with source := c, heldBack := none } ∧ c.gaveUp = true ∧
      K.Exhausted base K.Member) ∨
    ∃ v c c', K.Reached base c v ∧ K.First N v ∧ (∀ w, K.Member w → (U w ↔ v ≤ w)) ∧
      ((∃ w, s' = { s with source := c', heldBack := some w } ∧
          found = kept (keptOfPeriod s.positions) (K.group N (N v)) ∧
          K.Reached base c' w ∧ IsLeast {x | K.Member x ∧ N v < N x} w) ∨
        s' = { s with source := c', heldBack := none, finished := true } ∧
          ∃ u seen, found = kept (keptOfPeriod s.positions) seen ∧ K.CutOff N base v u seen)

/-- **Collecting a period** settles. -/
theorem Front.collect [DecidableEq κ] (hK : K.Begins) (hcredited : K.credited = none)
    (hd : K.Divides N key)
    (hpositions : s.positions ≠ []) (h : s.Front K N base U) :
    ∃ found s', Settles (fun n => s.collect (Candidates.next n) key n) (.ok found, s') ∧
      s.Collects K N base U found s' := by
  obtain ⟨a, c, hfirst, ⟨v, rfl, hreached, hbegins, hbehind⟩ | ⟨rfl, hgave, hex⟩⟩ :=
    h.first hK hcredited
  · obtain ⟨⟨src, candidates, following⟩, c', hloop, hgathers⟩ :=
      hreached.gather hK hcredited hd hbegins rfl (keeps_first hpositions)
    refine ⟨candidates, { s with
      source := src, heldBack := following, finished := s.finished || following.isNone }, ?_,
      .inr ⟨v, c, src, hreached, hbegins, hbehind, ?_⟩⟩
    · filter_upwards [hfirst, hloop] with n hn hn'
      simp only [Selection.collect, hn, hn']
    · rcases hgathers with ⟨w, rfl, hfound, hreached', hleast⟩ | ⟨rfl, hfound⟩
      · exact .inl ⟨w, by simp, hfound, hreached', hleast⟩
      · exact .inr ⟨by simp, hfound⟩
  · refine ⟨[], { s with source := c, heldBack := none }, ?_, .inl ⟨c, rfl, rfl, hgave, hex⟩⟩
    filter_upwards [hfirst] with n hn
    simp only [Selection.collect, hn]

end Selection

end Recurrence
