import Cdr.Layout.Measure
import Cdr.Proofs.WellFormed

/-! Measures that succeed.  A measure fails only at a layout that cannot be looked up, so one whose
references lead to built layouts gives an extent.  A measure that succeeds has looked up built
layouts only, so it gives the same extent against a table with more of them. -/

namespace Cdr

namespace Sizing

theorem bind_eq_ok {step next : Sizing Unit} {e e' : Extent} :
    (step >>= fun _ => next) e = .ok () e' ↔ ∃ f, step e = .ok () f ∧ next f = .ok () e' := by
  show EStateM.bind step (fun _ => next) e = _ ↔ _
  unfold EStateM.bind
  cases step e with
  | ok x f =>
    constructor
    · exact fun h => ⟨f, rfl, h⟩
    · rintro ⟨_, ⟨⟩, h⟩
      exact h
  | error fault f =>
    constructor
    · exact fun h => nomatch h
    · exact fun ⟨_, h, _⟩ => nomatch h

theorem get_bind_apply (next : Extent → Sizing Unit) (e : Extent) :
    (get >>= next) e = next e e := rfl

/-- Where the first step succeeds the second gives the same extent. -/
def Refines (step step' : Sizing Unit) : Prop :=
  ∀ ⦃e e' : Extent⦄, step e = .ok () e' → step' e = .ok () e'

namespace Refines

variable {step step' next next' : Sizing Unit}

protected theorem refl (step : Sizing Unit) : Refines step step := fun _ _ h => h

protected theorem bind (h : Refines step step') (hn : Refines next next') :
    Refines (step >>= fun _ => next) (step' >>= fun _ => next') := by
  intro e e' hok
  obtain ⟨f, hs, hr⟩ := bind_eq_ok.mp hok
  exact bind_eq_ok.mpr ⟨f, h hs, hn hr⟩

theorem get_bind {next next' : Extent → Sizing Unit} (h : ∀ e, Refines (next e) (next' e)) :
    Refines (get >>= next) (get >>= next') := fun e _ hok => h e hok

theorem naive (h : Refines step step') (count : Nat) :
    Refines (Sizing.naive step count) (Sizing.naive step' count) := by
  induction count with
  | zero => exact Refines.refl _
  | succ count ih =>
    refine get_bind fun e => ?_
    split
    · exact Refines.refl _
    · exact h.bind ih

theorem rounds (h : Refines step step') (seen : List Round) (left : Nat) :
    Refines (Sizing.rounds step seen left) (Sizing.rounds step' seen left) := by
  induction left generalizing seen with
  | zero => exact Refines.refl _
  | succ left ih =>
    refine get_bind fun e => ?_
    split
    · exact Refines.refl _
    · split
      · exact (Refines.refl _).bind (h.naive _)
      · exact h.bind (ih _)

theorem times (h : Refines step step') (count : Nat) :
    Refines (Sizing.times count step) (Sizing.times count step') := h.rounds [] count

theorem branch (h : Refines step step') (start : Extent) :
    Refines (Sizing.branch start step) (Sizing.branch start step') := by
  intro e e' hok
  unfold Sizing.branch at hok ⊢
  cases hstep : step start with
  | ok x f =>
    rw [hstep] at hok
    rw [h hstep]
    exact hok
  | error fault f =>
    rw [hstep] at hok
    cases hok

end Refines

/-- The step gives an extent, whatever it starts from. -/
def Succeeds (step : Sizing Unit) : Prop := ∀ e, ∃ e', step e = .ok () e'

namespace Succeeds

variable {step next : Sizing Unit}

protected theorem pure : Succeeds (pure ()) := fun e => ⟨e, rfl⟩

theorem modify (f : Extent → Extent) : Succeeds (modify f) := fun e => ⟨f e, rfl⟩

theorem set (e : Extent) : Succeeds (set e) := fun _ => ⟨e, rfl⟩

protected theorem bind (h : Succeeds step) (hn : Succeeds next) :
    Succeeds (step >>= fun _ => next) := by
  intro e
  obtain ⟨f, hs⟩ := h e
  obtain ⟨e', hr⟩ := hn f
  exact ⟨e', bind_eq_ok.mpr ⟨f, hs, hr⟩⟩

theorem get_bind {next : Extent → Sizing Unit} (h : ∀ e, Succeeds (next e)) :
    Succeeds (get >>= next) := fun e => h e e

theorem naive (h : Succeeds step) (count : Nat) : Succeeds (Sizing.naive step count) := by
  induction count with
  | zero => exact Succeeds.pure
  | succ count ih =>
    apply get_bind
    intro e
    split
    · exact Succeeds.pure
    · exact h.bind ih

theorem rounds (h : Succeeds step) (seen : List Round) (left : Nat) :
    Succeeds (Sizing.rounds step seen left) := by
  induction left generalizing seen with
  | zero => exact Succeeds.pure
  | succ left ih =>
    apply get_bind
    intro e
    split
    · exact Succeeds.pure
    · split
      · exact (modify _).bind (h.naive _)
      · exact h.bind (ih _)

theorem times (h : Succeeds step) (count : Nat) : Succeeds (Sizing.times count step) :=
  h.rounds [] count

theorem branch (h : Succeeds step) (start : Extent) : Succeeds (Sizing.branch start step) := by
  intro e
  obtain ⟨f, hstep⟩ := h start
  exact ⟨e.merge f, by rw [Sizing.branch, hstep]⟩

end Succeeds

end Sizing

namespace Layout

open Sizing

variable {a : Assumptions} {follow follow' : Reference → Sizing Unit} {good : Reference → Prop}

theorem succeeds_unlessUnbounded {step : Sizing Unit} (h : Succeeds step) :
    Succeeds (unlessUnbounded step) := by
  apply Succeeds.get_bind
  intro e
  split
  · exact h
  · exact Succeeds.pure

mutual

/-- A layout has a measure where all its references have one. -/
theorem succeeds_measureWith (hfollow : ∀ target, good target → Succeeds (follow target))
    (l : Layout) (hl : l.WellFormed good) : Succeeds (measureWith a follow l) := by
  match l with
  | primitive _ | string _ | bytes _ | enumeration _ _ =>
    exact succeeds_unlessUnbounded (Succeeds.modify _)
  | array element length =>
    exact succeeds_unlessUnbounded ((succeeds_measureWith hfollow element hl).times _)
  | sequence element bound =>
    have helement := succeeds_measureWith hfollow element hl
    exact succeeds_unlessUnbounded ((Succeeds.modify _).bind (helement.times _))
  | map key value bound =>
    have hkey := succeeds_measureWith hfollow key hl.1
    have hvalue := succeeds_measureWith hfollow value hl.2
    exact succeeds_unlessUnbounded ((Succeeds.modify _).bind ((hkey.bind hvalue).times _))
  | struct _ members =>
    exact succeeds_unlessUnbounded (succeeds_measureMembers hfollow members hl.2)
  | union ⟨_, _, cases, none, tagOnly⟩ =>
    refine succeeds_unlessUnbounded ((Succeeds.modify _).bind ((Succeeds.modify _).bind ?_))
    split
    · exact Succeeds.get_bind fun start =>
        (succeeds_measureCases hfollow start cases hl.cases).bind Succeeds.pure
    · exact Succeeds.pure
  | union ⟨_, _, cases, some ⟨_, _, content⟩, tagOnly⟩ =>
    have hcontent := succeeds_measureWith hfollow content hl.2.2.2
    refine succeeds_unlessUnbounded ((Succeeds.modify _).bind ((Succeeds.modify _).bind ?_))
    split
    · exact Succeeds.get_bind fun start =>
        (succeeds_measureCases hfollow start cases hl.cases).bind (hcontent.branch start)
    · exact Succeeds.pure
  | optional inner =>
    exact succeeds_unlessUnbounded
      ((Succeeds.modify _).bind (succeeds_measureWith hfollow inner hl))
  | reference target => exact succeeds_unlessUnbounded (hfollow target hl)
termination_by structural l

theorem succeeds_measureMembers (hfollow : ∀ target, good target → Succeeds (follow target))
    (members : List (Member Layout)) (hm : MembersWellFormed good members) :
    Succeeds (measureMembers a follow members) := by
  match members with
  | [] => exact Succeeds.pure
  | ⟨_, content⟩ :: members =>
    exact (succeeds_measureWith hfollow content hm.1).bind
      (succeeds_measureMembers hfollow members hm.2)
termination_by structural members

theorem succeeds_measureCases (hfollow : ∀ target, good target → Succeeds (follow target))
    (start : Extent) (cases : List (Case Layout)) (hc : CasesWellFormed good cases) :
    Succeeds (measureCases a follow start cases) := by
  match cases with
  | [] => exact Succeeds.pure
  | ⟨_, _, content⟩ :: cases =>
    exact ((succeeds_measureWith hfollow content hc.1).branch start).bind
      (succeeds_measureCases hfollow start cases hc.2)
termination_by structural cases

end

/-- A layout has a measure where its references, and all behind them, lead to layouts. -/
theorem succeeds_measure {types : Lookup}
    (h : ∀ target, good target → ∃ l, types target.id target.role = .ok l ∧ l.WellFormed good)
    (a : Assumptions) (budget : Nat) (visiting : List (Nat × Role)) {l : Layout}
    (hl : l.WellFormed good) : Succeeds (measure types a budget visiting l) := by
  induction budget generalizing visiting l with
  | zero => exact succeeds_measureWith (fun _ _ => Succeeds.set _) l hl
  | succ budget ih =>
    apply succeeds_measureWith _ l hl
    intro target hgood
    split
    · exact Succeeds.set _
    · obtain ⟨found, htypes, hfound⟩ := h target hgood
      simp only [htypes]
      exact ih _ hfound

theorem refines_unlessUnbounded {step step' : Sizing Unit} (h : Refines step step') :
    Refines (unlessUnbounded step) (unlessUnbounded step') := by
  refine Refines.get_bind fun e => ?_
  split
  · exact h
  · exact Refines.refl _

mutual

theorem refines_measureWith (hfollow : ∀ target, Refines (follow target) (follow' target))
    (l : Layout) : Refines (measureWith a follow l) (measureWith a follow' l) := by
  match l with
  | primitive _ | string _ | bytes _ | enumeration _ _ => exact Refines.refl _
  | array element length =>
    exact refines_unlessUnbounded ((refines_measureWith hfollow element).times _)
  | sequence element bound =>
    exact refines_unlessUnbounded
      ((Refines.refl _).bind ((refines_measureWith hfollow element).times _))
  | map key value bound =>
    exact refines_unlessUnbounded ((Refines.refl _).bind
      (((refines_measureWith hfollow key).bind (refines_measureWith hfollow value)).times _))
  | struct _ members => exact refines_unlessUnbounded (refines_measureMembers hfollow members)
  | union ⟨_, _, cases, none, tagOnly⟩ =>
    refine refines_unlessUnbounded ((Refines.refl _).bind ((Refines.refl _).bind ?_))
    split
    · exact Refines.get_bind fun start =>
        (refines_measureCases hfollow start cases).bind (Refines.refl _)
    · exact Refines.refl _
  | union ⟨_, _, cases, some ⟨_, _, content⟩, tagOnly⟩ =>
    refine refines_unlessUnbounded ((Refines.refl _).bind ((Refines.refl _).bind ?_))
    split
    · exact Refines.get_bind fun start =>
        (refines_measureCases hfollow start cases).bind
          ((refines_measureWith hfollow content).branch start)
    · exact Refines.refl _
  | optional inner =>
    exact refines_unlessUnbounded ((Refines.refl _).bind (refines_measureWith hfollow inner))
  | reference target => exact refines_unlessUnbounded (hfollow target)
termination_by structural l

theorem refines_measureMembers (hfollow : ∀ target, Refines (follow target) (follow' target))
    (members : List (Member Layout)) :
    Refines (measureMembers a follow members) (measureMembers a follow' members) := by
  match members with
  | [] => exact Refines.refl _
  | ⟨_, content⟩ :: members =>
    exact (refines_measureWith hfollow content).bind (refines_measureMembers hfollow members)
termination_by structural members

theorem refines_measureCases (hfollow : ∀ target, Refines (follow target) (follow' target))
    (start : Extent) (cases : List (Case Layout)) :
    Refines (measureCases a follow start cases) (measureCases a follow' start cases) := by
  match cases with
  | [] => exact Refines.refl _
  | ⟨_, _, content⟩ :: cases =>
    exact ((refines_measureWith hfollow content).branch start).bind
      (refines_measureCases hfollow start cases)
termination_by structural cases

end

/-- A table with more layouts gives the same measure. -/
theorem refines_measure {types types' : Lookup}
    (h : ∀ id role l, types id role = .ok l → types' id role = .ok l) (a : Assumptions)
    (budget : Nat) (visiting : List (Nat × Role)) (l : Layout) :
    Refines (measure types a budget visiting l) (measure types' a budget visiting l) := by
  induction budget generalizing visiting l with
  | zero => exact Refines.refl _
  | succ budget ih =>
    refine refines_measureWith (fun target => ?_) l
    split
    · exact Refines.refl _
    · cases htypes : types target.id target.role with
      | ok layout =>
        rw [h _ _ _ htypes]
        exact ih _ layout
      | error fault => exact fun _ _ hok => nomatch hok

end Layout

end Cdr
