/-
Recurrence/Proofs/Generators/Lockstep.lean

Chains that go in step.

Two chains can fill different fields in corresponding ways: their generators are related, and
asked with related fields they give the same answer and leave generators and fields related
(`Generator.Lockstep`).  Odometers then run to the same end, and candidates over such chains go in
step, whether they are asked for the next one or passed over by months
(`Candidates.InStep.lockstep`).
-/
import Recurrence.Proofs.Series.Lockstep

namespace Recurrence

/-! ### Chains -/

/-- The same outcome, of generators and fields that stay related. -/
inductive SameAnswer {γ γ' φ φ' : Type} (G : γ → γ' → Prop) (F : φ → φ' → Prop) :
    Step × γ × φ → Step × γ' × φ' → Prop where
  | intro (step : Step) {g : γ} {g' : γ'} {f : φ} {f' : φ'} (hg : G g g') (hf : F f f') :
      SameAnswer G F (step, g, f) (step, g', f')

section Chains

variable {γ γ' φ φ' : Type} {G : γ → γ' → Prop} {F : φ → φ' → Prop} {chain : List γ}
  {chain' : List γ'}

/-- Answers stay related when what gives them is put into something else. -/
theorem SameAnswer.map {δ δ' : Type} {H : δ → δ' → Prop} {into : γ → δ} {into' : γ' → δ'}
    {a : Step × γ × φ} {a' : Step × γ' × φ'} (h : SameAnswer G F a a')
    (hinto : ∀ g g', G g g' → H (into g) (into' g')) :
    SameAnswer H F (a.1, into a.2.1, a.2.2) (a'.1, into' a'.2.1, a'.2.2) := by
  obtain ⟨step, hg, hf⟩ := h
  exact ⟨step, hinto _ _ hg, hf⟩

theorem rel_set (h : List.Forall₂ G chain chain') (i : Nat) {g : γ} {g' : γ'} (hg : G g g') :
    List.Forall₂ G (chain.set i g) (chain'.set i g') := by
  induction h generalizing i with
  | nil => exact .nil
  | cons head tail ih =>
    cases i with
    | zero => exact .cons hg tail
    | succ i => exact .cons head (ih i)

theorem rel_modify (h : List.Forall₂ G chain chain') (i : Nat) {change : γ → γ}
    {change' : γ' → γ'} (hchange : ∀ g g', G g g' → G (change g) (change' g')) :
    List.Forall₂ G (chain.modify i change) (chain'.modify i change') := by
  induction h generalizing i with
  | nil => simp
  | cons head tail ih =>
    cases i with
    | zero => simpa using ⟨hchange _ _ head, tail⟩
    | succ i => simpa using ⟨head, ih i⟩

/-- **Odometers in step**: related chains are run to related fields, and stay related. -/
theorem Odometer.run_rel {generate : Generate γ φ} {generate' : Generate γ' φ'}
    (hask : ∀ g g' f f', G g g' → F f f' →
      Option.Rel (SameAnswer G F) (generate g f) (generate' g' f'))
    (n count index : Nat) (h : List.Forall₂ G chain chain') {f : φ} {f' : φ'} (hf : F f f') :
    Option.Rel (SameAnswer (List.Forall₂ G) F) (run generate n count index chain f)
      (run generate' n count index chain' f') := by
  refine loop_rel (R := fun o o' => o.index = o'.index ∧ List.Forall₂ G o.chain o'.chain ∧
    F o.fields o'.fields) ?_ n ⟨rfl, h, hf⟩
  rintro ⟨i, chain, f⟩ ⟨_, chain', f'⟩ ⟨rfl, h, hf⟩
  have hturn := rel_getElem? (List.forall₂_take count h) i
  simp only [turn]
  generalize (chain.take count)[i]? = a at hturn ⊢
  generalize (chain'.take count)[i]? = b at hturn ⊢
  cases hturn with
  | none => exact .some (.done ⟨_, h, hf⟩)
  | @some g g' hg =>
    have hanswer := hask g g' f f' hg hf
    dsimp only
    generalize generate g f = a at hanswer ⊢
    generalize generate' g' f' = b at hanswer ⊢
    cases hanswer with
    | none => exact .none
    | some hanswer =>
      obtain ⟨step, hg', hf'⟩ := hanswer
      have hset := rel_set h i hg'
      cases step with
      | value => exact .some (.again ⟨rfl, hset, hf'⟩)
      | rollover =>
        cases i with
        | zero => exact .some (.done ⟨_, hset, hf'⟩)
        | succ i => exact .some (.again ⟨rfl, hset, hf'⟩)
      | halt => exact .some (.done ⟨_, hset, hf'⟩)
      | undefined why => exact .some (.done ⟨_, hset, hf'⟩)

end Chains

/-! ### Generators -/

variable {G : Generator → Generator → Prop} {F : Fields → Fields → Prop}
  {V W : Value → Value → Prop} {c c' : Candidates} {l l' : Value}

/-- Whether fields stand in a month before or after that of a target as other fields do to
another one. -/
structure Fields.StandsLike (f : Fields) (l : Value) (f' : Fields) (l' : Value) : Prop where
  year_lt : f.year < l.date.year ↔ f'.year < l'.date.year
  year_eq : f.year = l.date.year ↔ f'.year = l'.date.year
  month_lt : f.month < l.date.month ↔ f'.month < l'.date.month

/-- **Generators over related sources** fill related fields alike, if their filters accept the same
of them. -/
theorem Generator.generate_rel {S : FieldSource → FieldSource → Prop} {g g' : Generator}
    (hask : ∀ s s' f f', S s s' → F f f' → SameAnswer S F (s.generate f) (s'.generate f'))
    (haccepts : ∀ f f', F f f' → Filter.acceptsAll g.filters (.ofDate f.date) =
      Filter.acceptsAll g'.filters (.ofDate f'.date))
    (hG : ∀ s s', S s s' → G ⟨s, g.filters⟩ ⟨s', g'.filters⟩) (n : Nat)
    (hs : S g.source g'.source) {f f' : Fields} (hf : F f f') :
    Option.Rel (SameAnswer G F) (g.generate n f) (g'.generate n f') := by
  refine loop_rel (R := fun s s' => S s.1 s'.1 ∧ F s.2 s'.2) ?_ n ⟨hs, hf⟩
  rintro ⟨s, f⟩ ⟨s', f'⟩ ⟨hs, hf⟩
  have hanswer := hask s s' f f' hs hf
  refine .some ?_
  simp only [attempt]
  generalize s.generate f = a at hanswer ⊢
  generalize s'.generate f' = b at hanswer ⊢
  obtain ⟨step, hs', hf'⟩ := hanswer
  cases step with
  | value =>
    dsimp only
    rw [← haccepts _ _ hf']
    generalize Filter.acceptsAll g.filters _ = passes
    cases passes with
    | error why => exact .done ⟨_, hG _ _ hs', hf'⟩
    | ok passes =>
      cases passes with
      | true => exact .done ⟨_, hG _ _ hs', hf'⟩
      | false => exact .again ⟨hs', hf'⟩
  | rollover => exact .done ⟨_, hG _ _ hs', hf'⟩
  | halt => exact .done ⟨_, hG _ _ hs', hf'⟩
  | undefined why => exact .done ⟨_, hG _ _ hs', hf'⟩

/-- Generators that fill related fields alike and stay related.  Related fields stand alike to
related targets. -/
structure Generator.Lockstep (G : Generator → Generator → Prop) (F : Fields → Fields → Prop)
    (W : Value → Value → Prop) : Prop where
  generate : ∀ n g g' f f', G g g' → F f f' →
    Option.Rel (SameAnswer G F) (g.generate n f) (g'.generate n f')
  refill : ∀ g g', G g g' → G g.refill g'.refill
  stands : ∀ f f' l l', F f f' → W l l' → f.StandsLike l f' l'

/-! ### Candidates -/

namespace Candidates

/-- Candidates whose generators and fields are related, and that make related values of related
fields. -/
structure InStep (G : Generator → Generator → Prop) (F : Fields → Fields → Prop)
    (V : Value → Value → Prop) (c c' : Candidates) : Prop where
  chain : List.Forall₂ G c.chain c'.chain
  fields : F c.fields c'.fields
  credited : c.credited = c'.credited
  value : ∀ f f', F f f' → V (f.toValue c.hasTime) (f'.toValue c'.hasTime)
  accepts : ∀ v v', V v v' → c.filter.accepts v = c'.filter.accepts v'

/-- The same outcome, of candidates that stay related. -/
inductive SameRun (R : Candidates → Candidates → Prop) :
    Step × Candidates → Step × Candidates → Prop where
  | intro (step : Step) {c c' : Candidates} (h : R c c') : SameRun R (step, c) (step, c')

theorem SameRun.sameStep {R : Candidates → Candidates → Prop} {x y : Step × Candidates}
    (h : SameRun R x y) : SameStep R x y := by
  obtain ⟨step, h⟩ := h
  exact ⟨rfl, .inr h⟩

theorem InStep.chain_length (h : InStep G F V c c') : c.chain.length = c'.chain.length :=
  h.chain.length_eq

section

variable (hG : Generator.Lockstep G F W)

include hG

theorem InStep.run (n count index : Nat) (h : InStep G F V c c') :
    Option.Rel (SameRun (InStep G F V)) (c.run n count index) (c'.run n count index) := by
  refine rel_map (fun a b hab => ?_) (Odometer.run_rel (hG.generate n) n count index h.chain h.fields)
  obtain ⟨step, hchain, hfields⟩ := hab
  exact ⟨step, { h with chain := hchain, fields := hfields }⟩

theorem InStep.credit (h : InStep G F V c c') (i : Nat) :
    InStep G F V (c.credit i) (c'.credit i) :=
  { h with chain := rel_modify h.chain i hG.refill }

theorem InStep.creditOwn (h : InStep G F V c c') : InStep G F V c.creditOwn c'.creditOwn := by
  unfold Candidates.creditOwn
  rw [← h.credited]
  cases c.credited with
  | none => exact h
  | some i => exact h.credit hG i

/-- Asked for the next candidate, candidates in step answer alike. -/
theorem InStep.next (n : Nat) (h : InStep G F V c c') :
    Option.Rel (Agree V (InStep G F V)) (c.next n) (c'.next n) := by
  refine loop_rel (R := InStep G F V) (fun c c' h => ?_) n h
  have hrun := h.run hG n c.chain.length (c.chain.length - 1)
  unfold attempt advance
  rw [← h.chain_length]
  generalize c.run n c.chain.length (c.chain.length - 1) = a at hrun ⊢
  generalize c'.run n c.chain.length (c.chain.length - 1) = b at hrun ⊢
  cases hrun with
  | none => exact .none
  | some hrun =>
    obtain ⟨step, h₁⟩ := hrun
    rename_i c₁ c₁'
    cases step with
    | value =>
      have hv := h₁.value _ _ h₁.fields
      dsimp only
      rw [← h₁.accepts _ _ hv]
      cases c₁.filter.accepts (c₁.fields.toValue c₁.hasTime) with
      | error why => exact .some (.done (.failed h₁))
      | ok passes =>
        cases passes with
        | true => exact .some (.done (.value hv (h₁.creditOwn hG)))
        | false => exact .some (.again h₁)
    | rollover => exact .some (.done (.ended _ _))
    | halt => exact .some (.done (.ended _ _))
    | undefined why => exact .some (.done (.failed h₁))

/-- Stepping through the years before related targets in step. -/
theorem InStep.skipYears (n : Nat) (hl : W l l') (h : InStep G F V c c') :
    Option.Rel (SameRun (InStep G F V)) (Series.skipYears n c l) (Series.skipYears n c' l') := by
  have hyear {c c' : Candidates} (h : InStep G F V c c') :
      c.fields.year < l.date.year ↔ c'.fields.year < l'.date.year :=
    (hG.stands _ _ _ _ h.fields hl).year_lt
  unfold Series.skipYears
  rw [if_congr (hyear h) rfl rfl]
  split_ifs
  · have hloop : Option.Rel (SameRun (InStep G F V))
        (loop (Series.skipYearTurn n l) n (.value, c))
        (loop (Series.skipYearTurn n l') n (.value, c')) := by
      refine loop_rel (R := SameRun (InStep G F V)) (fun s s' hs => ?_) n ⟨_, h⟩
      obtain ⟨step, h⟩ := hs
      unfold Series.skipYearTurn
      dsimp only
      rw [if_congr (and_congr_left' (hyear h)) rfl rfl]
      split_ifs
      · exact rel_map (fun _ _ h => .again h) ((h.credit hG 0).run hG n 1 0)
      · exact .some (.done ⟨step, h⟩)
    generalize loop (Series.skipYearTurn n l) n (.value, c) = a at hloop ⊢
    generalize loop (Series.skipYearTurn n l') n (.value, c') = b at hloop ⊢
    cases hloop with
    | none => exact .none
    | some hab =>
      obtain ⟨step, h⟩ := hab
      cases step with
      | value => exact h.run hG n 2 1
      | rollover => exact .some ⟨_, h⟩
      | halt => exact .some ⟨_, h⟩
      | undefined why => exact .some ⟨_, h⟩
  · exact .some ⟨_, h⟩

/-- Passing over the months before related targets in step. -/
theorem InStep.skipMonths (n : Nat) (hl : W l l') (h : InStep G F V c c') :
    Option.Rel (SameRun (InStep G F V)) (Series.skipMonths n c l) (Series.skipMonths n c' l') := by
  have hbefore {c c' : Candidates} (h : InStep G F V c c') :
      Series.monthBefore c l = Series.monthBefore c' l' := by
    have hstands := hG.stands _ _ _ _ h.fields hl
    simp only [Series.monthBefore, hstands.year_lt, hstands.month_lt, Bool.beq_eq_decide_eq,
      hstands.year_eq]
  unfold Series.skipMonths
  rw [← hbefore h]
  split_ifs
  · exact .some ⟨_, h⟩
  · have hyears := h.skipYears hG n hl
    generalize Series.skipYears n c l = a at hyears ⊢
    generalize Series.skipYears n c' l' = b at hyears ⊢
    cases hyears with
    | none => exact .none
    | @some a b hyears =>
      have hloop : Option.Rel (SameRun (InStep G F V)) (loop (Series.skipMonthTurn n l) n a)
          (loop (Series.skipMonthTurn n l') n b) := by
        refine loop_rel (R := SameRun (InStep G F V)) (fun s s' hs => ?_) n hyears
        obtain ⟨step, h⟩ := hs
        unfold Series.skipMonthTurn
        dsimp only
        rw [← hbefore h]
        split_ifs
        · exact rel_map (fun _ _ h => .again h) (h.run hG n 2 1)
        · exact .some (.done ⟨step, h⟩)
      dsimp only
      generalize loop (Series.skipMonthTurn n l) n a = x at hloop ⊢
      generalize loop (Series.skipMonthTurn n l') n b = y at hloop ⊢
      cases hloop with
      | none => exact .none
      | some hab =>
        obtain ⟨step, h⟩ := hab
        cases step with
        | value =>
          dsimp only
          rw [← h.chain_length]
          exact h.run hG n _ 2
        | rollover => exact .some ⟨_, h⟩
        | halt => exact .some ⟨_, h⟩
        | undefined why => exact .some ⟨_, h⟩

/-- Filling all fields but the finest, candidates in step come to the same. -/
theorem InStep.runFirst (n : Nat) (h : InStep G F V c c') :
    Option.Rel (SameStep (InStep G F V)) (c.run n (c.chain.length - 1) 0)
      (c'.run n (c'.chain.length - 1) 0) := by
  rw [← h.chain_length]
  simpa using rel_map (f := id) (g := id) (fun _ _ h => h.sameStep) (h.run hG n _ 0)

/-- **Candidates of generators in step** are in step themselves. -/
theorem InStep.lockstep : Candidates.Lockstep V W (InStep G F V) where
  next n _ _ h := h.next hG n
  credit _ _ h := h.credit hG 0
  skipMonths n _ _ _ _ hl h := by
    simpa using rel_map (f := id) (g := id) (fun _ _ h => h.sameStep) (h.skipMonths hG n hl)

end

end Candidates

end Recurrence
