import Cdr.Proofs.Measuring

/-! Repeated measures.  A regular step moves an extent by an amount that depends on the offset
modulo the period only, as long as there is a bound, so whole cycles of rounds can be taken at once:
the fast repetition gives what the naive one gives. -/

namespace Cdr

namespace Extent

theorem isUnbounded_iff {e : Extent} : e.isUnbounded = true ↔ e.offset = limit := by
  simp [isUnbounded]

@[simp] theorem offset_skip (n : Nat) (e : Extent) :
    (e.skip n).offset = min limit (e.offset + n) := rfl

end Extent

namespace Sizing

open Extent

theorem bind_apply (step next : Sizing Unit) (e : Extent) :
    (step >>= fun _ => next) e =
      match step e with
      | .ok _ f => next f
      | .error fault f => .error fault f := by
  show EStateM.bind step (fun _ => next) e = _
  unfold EStateM.bind
  cases step e <;> rfl

/-- A step that succeeds moves an extent forward, up to the limit, and as far as it moves any other
that lies whole periods behind. -/
structure Shifts (step : Sizing Unit) : Prop where
  grows : ∀ e e', e.offset ≤ limit → step e = .ok () e' → e.offset ≤ e'.offset ∧ e'.offset ≤ limit
  periodic : ∀ e e' k, step e = .ok () e' → e.offset + period * k ≤ limit →
    step ⟨e.offset + period * k⟩ = .ok () ⟨min limit (e'.offset + period * k)⟩

/-- A step that shifts extents and leaves them where there is no bound. -/
structure Regular (step : Sizing Unit) : Prop extends Shifts step where
  stays : step unbounded = .ok () unbounded

namespace Regular

variable {step next : Sizing Unit}

protected theorem pure : Regular (pure ()) where
  grows := by
    rintro e _ he ⟨⟩
    exact ⟨Nat.le_refl _, he⟩
  stays := rfl
  periodic := by
    rintro e _ k ⟨⟩ hk
    rw [Nat.min_eq_right hk]
    rfl

protected theorem unbounded : Regular (set Extent.unbounded) where
  grows := by
    rintro e _ he ⟨⟩
    exact ⟨he, Nat.le_refl _⟩
  stays := rfl
  periodic := by
    rintro e _ k ⟨⟩ -
    rw [Nat.min_eq_left (by simp [unbounded])]
    rfl

protected theorem bind (h : Regular step) (hn : Regular next) :
    Regular (step >>= fun _ => next) where
  grows e e' he hok := by
    obtain ⟨f, hs, hr⟩ := bind_eq_ok.mp hok
    obtain ⟨hle, hf⟩ := h.grows e f he hs
    obtain ⟨hle', hf'⟩ := hn.grows f e' hf hr
    exact ⟨Nat.le_trans hle hle', hf'⟩
  stays := bind_eq_ok.mpr ⟨_, h.stays, hn.stays⟩
  periodic e e' k hok hk := by
    obtain ⟨f, hs, hr⟩ := bind_eq_ok.mp hok
    obtain ⟨hle, hf⟩ := h.grows e f (by omega) hs
    obtain ⟨hle', -⟩ := hn.grows f e' hf hr
    refine bind_eq_ok.mpr ⟨_, h.periodic e f k hs hk, ?_⟩
    by_cases hfk : f.offset + period * k ≤ limit
    · rw [Nat.min_eq_right hfk]
      exact hn.periodic f e' k hr hfk
    · rw [Nat.min_eq_left (by omega), Nat.min_eq_left (by omega)]
      exact hn.stays

theorem skip (n : Nat) : Regular (modify (Extent.skip n)) where
  grows := by
    rintro e _ he ⟨⟩
    simp
    omega
  stays := by
    show EStateM.Result.ok () (Extent.skip n unbounded) = _
    simp [Extent.skip, unbounded]
  periodic := by
    rintro e _ k ⟨⟩ -
    show EStateM.Result.ok () (Extent.skip n _) = _
    simp only [Extent.skip]
    congr 2
    omega

theorem align {size : Nat} (hsize : size ∣ period) : Regular (modify (Extent.align size)) where
  grows := by
    rintro e _ he ⟨⟩
    simp only [Extent.align]
    split
    · exact ⟨Nat.le_refl _, he⟩
    split
    · exact ⟨Nat.le_refl _, he⟩
    · simp
      omega
  stays := by
    show EStateM.Result.ok () (Extent.align size unbounded) = _
    simp [Extent.align, isUnbounded, unbounded]
  periodic := by
    rintro e _ k ⟨⟩ hk
    show EStateM.Result.ok () (Extent.align size _) = _
    obtain ⟨m, hm⟩ := hsize
    have hresidue : (e.offset + period * k) % size = e.offset % size := by
      rw [hm, Nat.mul_assoc, Nat.add_mul_mod_self_left]
    simp only [Extent.align, isUnbounded_iff, hresidue]
    congr 1
    -- Both offsets have one residue, so they need the same padding, unless one is at the limit.
    by_cases hone : size ≤ 1
    · simp only [hone, true_or, if_true]
      congr 1
      omega
    · by_cases hlimit : e.offset + period * k = limit
      · have : limit ≤ (if size ≤ 1 ∨ e.offset = limit then e
            else if e.offset % size = 0 then e
            else Extent.skip (size - e.offset % size) e).offset + period * k := by
          split
          · omega
          split
          · omega
          · simp
            omega
        simp only [hlimit, or_true, if_true]
        congr 1
        omega
      · have hbelow : ¬ e.offset = limit := by omega
        simp only [hone, hlimit, hbelow, or_self, if_false]
        split
        · congr 1
          omega
        · simp only [Extent.skip]
          congr 1
          omega

theorem primitive {size : Nat} (hsize : size ∣ period) :
    Regular (modify (Extent.primitive size)) := (align hsize).bind (skip size)

end Regular

section Loops

variable {step : Sizing Unit}

theorem naive_succ (step : Sizing Unit) (count : Nat) (e : Extent) :
    naive step (count + 1) e =
      if e.isUnbounded then .ok () e else (step >>= fun _ => naive step count) e := by
  rw [naive, get_bind_apply]
  split <;> rfl

theorem naive_of_unbounded (step : Sizing Unit) (count : Nat) {e : Extent}
    (h : e.isUnbounded = true) : naive step count e = .ok () e := by
  cases count with
  | zero => rfl
  | succ count => rw [naive_succ, if_pos h]

/-- A loop is one part of its rounds after the other. -/
theorem naive_add (step : Sizing Unit) (m n : Nat) (e : Extent) :
    naive step (m + n) e = (naive step m >>= fun _ => naive step n) e := by
  induction m generalizing e with
  | zero =>
    rw [Nat.zero_add]
    rfl
  | succ m ih =>
    rw [Nat.add_right_comm, naive_succ, bind_apply (naive step (m + 1)), naive_succ]
    split
    · rename_i h
      exact (naive_of_unbounded step n h).symm
    · rw [bind_apply, bind_apply]
      cases step e with
      | ok _ f => exact (ih f).trans (bind_apply _ _ f)
      | error fault f => rfl

theorem Regular.naive (h : Regular step) (count : Nat) : Regular (Sizing.naive step count) := by
  induction count with
  | zero => exact Regular.pure
  | succ count ih =>
    have hboth := h.bind ih
    have hstays : Sizing.naive step (count + 1) unbounded = .ok () unbounded :=
      naive_of_unbounded step _ rfl
    refine ⟨⟨fun e e' he hok => ?_, fun e e' k hok hk => ?_⟩, hstays⟩
    · rw [naive_succ] at hok
      split at hok
      · cases hok
        exact ⟨Nat.le_refl _, he⟩
      · exact hboth.grows e e' he hok
    · rw [naive_succ] at hok
      split at hok
      · rename_i hunbounded
        cases hok
        have := isUnbounded_iff.mp hunbounded
        rw [Nat.min_eq_right hk]
        exact naive_of_unbounded step _ (isUnbounded_iff.mpr (by simp only; omega))
      · by_cases hlimit : e.offset + period * k = limit
        · have hgrows := hboth.grows e e' (by omega) hok
          rw [hlimit, Nat.min_eq_left (by omega)]
          exact hstays
        · rw [naive_succ, if_neg (fun hc => hlimit (isUnbounded_iff.mp hc))]
          exact hboth.periodic e e' k hok hk

/-- What is known of an earlier round, with `left` rounds left now: the rounds since then have led
to the present extent. -/
structure Passed (step : Sizing Unit) (left : Nat) (e : Extent) (r : Round) : Prop where
  residue : r.residue = r.offset % period
  earlier : left < r.left
  led : naive step (r.left - left) ⟨r.offset⟩ = .ok () e
  bounded : r.offset ≤ limit

/-- Whole cycles of rounds move an extent by a multiple of what one cycle does. -/
theorem Passed.naive_cycles (h : Regular step) {left : Nat} {e : Extent} {r : Round}
    (hr : Passed step left e r) (hresidue : r.residue = e.offset % period) (cycles : Nat) :
    naive step (cycles * (r.left - left)) e =
      .ok () (e.skip (min limit ((e.offset - r.offset) * cycles))) := by
  obtain ⟨hle, he⟩ := (h.naive _).grows _ _ hr.bounded hr.led
  simp only at hle
  -- The offset is back at the residue of the earlier round, so a cycle moves it by whole periods.
  obtain ⟨k, hk⟩ : ∃ k, e.offset = r.offset + period * k :=
    ⟨(e.offset - r.offset) / period, by
      have hmod : (e.offset - r.offset) % period = 0 :=
        Nat.sub_mod_eq_zero_of_mod_eq (by rw [← hresidue, hr.residue])
      have := Nat.div_add_mod (e.offset - r.offset) period
      omega⟩
  have hdelta : e.offset - r.offset = period * k := by omega
  rw [hdelta]
  induction cycles with
  | zero =>
    rw [Nat.zero_mul]
    show EStateM.Result.ok () e = _
    simp only [Extent.skip, Nat.mul_zero, Nat.min_zero, Nat.add_zero, Nat.min_eq_right he]
  | succ cycles ih =>
    rw [Nat.succ_mul, naive_add, bind_apply, ih]
    simp only
    have hnext : period * k * (cycles + 1) = period * (k * cycles) + period * k := by
      rw [Nat.mul_assoc, Nat.mul_add_one, Nat.mul_add]
    have hbefore : period * k * cycles = period * (k * cycles) := Nat.mul_assoc _ _ _
    by_cases hfar : limit ≤ e.offset + period * (k * cycles)
    · have hskip : ∀ n, limit ≤ e.offset + n → e.skip (min limit n) = unbounded := fun n hn => by
        simp only [Extent.skip, unbounded]
        congr 1
        omega
      rw [hbefore, hskip _ hfar, hnext, hskip _ (by omega)]
      exact (h.naive _).stays
    · have hperiodic := (h.naive _).periodic _ _ (k * cycles + k) hr.led (by
        simp only
        rw [Nat.mul_add]
        omega)
      simp only at hperiodic
      rw [Nat.mul_add] at hperiodic
      rw [hbefore, hnext]
      have hat : e.skip (min limit (period * (k * cycles))) =
          ⟨r.offset + (period * (k * cycles) + period * k)⟩ := by
        simp only [Extent.skip]
        congr 1
        omega
      rw [hat, hperiodic]
      simp only [Extent.skip]
      congr 2
      omega

/-- The fast repetition takes the same way as the naive one from any of its rounds on. -/
theorem Regular.rounds_eq (h : Regular step) {left : Nat} {e : Extent} (he : e.offset ≤ limit)
    {seen : List Round} (hseen : ∀ r ∈ seen, Passed step left e r) :
    Sizing.rounds step seen left e = Sizing.naive step left e := by
  induction left generalizing e seen with
  | zero => rfl
  | succ left ih =>
    rw [Sizing.rounds, get_bind_apply, naive_succ]
    split
    · rfl
    · rename_i hbounded
      cases hfind : seen.find? (·.residue == e.offset % period) with
      | some r =>
        have hr := hseen r (List.mem_of_find?_eq_some hfind)
        have hresidue : r.residue = e.offset % period := by simpa using List.find?_some hfind
        have hcycles := hr.naive_cycles h hresidue ((left + 1) / (r.left - (left + 1)))
        have hsplit := naive_add step ((left + 1) / (r.left - (left + 1)) * (r.left - (left + 1)))
          (left + 1 - (left + 1) / (r.left - (left + 1)) * (r.left - (left + 1))) e
        rw [Nat.add_sub_cancel' (Nat.div_mul_le_self _ _), bind_apply, hcycles, naive_succ,
          if_neg hbounded] at hsplit
        -- What the jump leaves to do is what is left of the naive loop behind whole cycles.
        exact hsplit.symm
      | none =>
        show (step >>= fun _ => Sizing.rounds step _ left) e = _
        rw [bind_apply, bind_apply]
        cases hstep : step e with
        | error fault f => rfl
        | ok _ f =>
          obtain ⟨hle, hf⟩ := h.grows e f he hstep
          have hone : Sizing.naive step 1 e = .ok () f := by
            rw [naive_succ, if_neg hbounded, bind_apply, hstep]
            rfl
          refine ih hf (List.forall_mem_cons.mpr ⟨⟨rfl, by simp, ?_, he⟩, fun r hr => ?_⟩)
          · simpa using hone
          · obtain ⟨hres, hearlier, hled, hb⟩ := hseen r hr
            refine ⟨hres, by omega, ?_, hb⟩
            rw [show r.left - left = r.left - (left + 1) + 1 by omega, naive_add, bind_apply, hled]
            exact hone

/-- The fast repetition of a regular step gives what the naive one gives. -/
theorem Regular.times_eq (h : Regular step) (count : Nat) {e : Extent} (he : e.offset ≤ limit) :
    Sizing.times count step e = Sizing.naive step count e := h.rounds_eq he fun _ hr => nomatch hr

theorem Regular.times (h : Regular step) (count : Nat) : Regular (Sizing.times count step) where
  grows e e' he hok := by
    rw [h.times_eq count he] at hok
    exact (h.naive count).grows e e' he hok
  stays := (h.times_eq count (Nat.le_refl _)).trans (h.naive count).stays
  periodic e e' k hok hk := by
    rw [h.times_eq count (by omega)] at hok
    rw [h.times_eq count hk]
    exact (h.naive count).periodic e e' k hok hk

end Loops

section Branches

/-- What branches from one start do to an extent, wherever the start and the extent are. -/
structure Merges (branches : Extent → Sizing Unit) : Prop where
  grows : ∀ start e e', start.offset ≤ limit → e.offset ≤ limit → branches start e = .ok () e' →
    e.offset ≤ e'.offset ∧ e'.offset ≤ limit
  stays : branches unbounded unbounded = .ok () unbounded
  periodic : ∀ start e e' k, branches start e = .ok () e' → start.offset + period * k ≤ limit →
    branches ⟨start.offset + period * k⟩ ⟨min limit (e.offset + period * k)⟩ =
      .ok () ⟨min limit (e'.offset + period * k)⟩

theorem branch_eq_ok {start e e' : Extent} {step : Sizing Unit} :
    branch start step e = .ok () e' ↔ ∃ f, step start = .ok () f ∧ e' = e.merge f := by
  unfold branch
  cases step start with
  | ok _ f => simp [eq_comm]
  | error fault f => simp

namespace Merges

variable {branches others : Extent → Sizing Unit} {step : Sizing Unit}

protected theorem pure : Merges fun _ => pure () where
  grows := by
    rintro _ e _ - he ⟨⟩
    exact ⟨Nat.le_refl _, he⟩
  stays := rfl
  periodic := by
    rintro _ e _ k ⟨⟩ -
    rfl

protected theorem branch (h : Regular step) : Merges fun start => branch start step where
  grows start e e' hs he hok := by
    obtain ⟨f, hf, rfl⟩ := branch_eq_ok.mp hok
    have := h.grows start f hs hf
    simp only [merge]
    omega
  stays := branch_eq_ok.mpr ⟨_, h.stays, by simp [merge, Extent.unbounded]⟩
  periodic start e e' k hok hk := by
    obtain ⟨f, hf, rfl⟩ := branch_eq_ok.mp hok
    refine branch_eq_ok.mpr ⟨_, h.periodic start f k hf hk, ?_⟩
    simp only [merge]
    congr 1
    omega

protected theorem bind (h : Merges branches) (h' : Merges others) :
    Merges fun start => branches start >>= fun _ => others start where
  grows start e e' hs he hok := by
    obtain ⟨f, hf, hr⟩ := bind_eq_ok.mp hok
    obtain ⟨hle, hflimit⟩ := h.grows start e f hs he hf
    obtain ⟨hle', helimit⟩ := h'.grows start f e' hs hflimit hr
    exact ⟨Nat.le_trans hle hle', helimit⟩
  stays := bind_eq_ok.mpr ⟨_, h.stays, h'.stays⟩
  periodic start e e' k hok hk := by
    obtain ⟨f, hf, hr⟩ := bind_eq_ok.mp hok
    exact bind_eq_ok.mpr ⟨_, h.periodic start e f k hf hk, h'.periodic start f e' k hr hk⟩

theorem regular (h : Merges branches) : Regular (get >>= branches) where
  grows e e' he hok := h.grows e e e' he he hok
  stays := h.stays
  periodic e e' k hok hk := by
    have := h.periodic e e e' k hok hk
    rwa [Nat.min_eq_right hk] at this

end Merges

end Branches

end Sizing

namespace Layout

open Sizing

section Alignments

variable (w : CountWidth)

theorem dvd_max {a b n : Nat} (ha : a ∣ n) (hb : b ∣ n) : max a b ∣ n := by
  rcases Nat.le_total a b with h | h
  · rwa [Nat.max_eq_right h]
  · rwa [Nat.max_eq_left h]

theorem dvd_max_zero {a b n : Nat} (ha : a ∣ n) (hb : b = 0 ∨ b ∣ n) : max a b ∣ n := by
  rcases hb with rfl | hb
  · rwa [Nat.max_zero]
  · exact dvd_max ha hb

theorem size_dvd_period (p : Primitive) : p.size ∣ period := by
  cases p with
  | integer t => cases t <;> decide
  | _ => decide

theorem alignment_discriminator_dvd (d : Discriminator) : d.alignment ∣ period := by
  cases d with
  | primitive p => exact size_dvd_period p
  | enumeration _ _ => exact (by decide : 4 ∣ period)

theorem bytes_dvd_period : w.bytes ∣ period := by
  cases w <;> decide

mutual

/-- Every alignment divides the period. -/
theorem alignment_dvd (l : Layout) : l.alignment w ∣ period := by
  match l with
  | primitive p => exact size_dvd_period p
  | string _ | enumeration _ _ => exact (by decide : 4 ∣ period)
  | bytes _ | sequence _ _ | map _ _ _ => exact bytes_dvd_period w
  | array element _ => exact alignment_dvd element
  | union ⟨_, d, cases, none, _⟩ =>
    refine dvd_max_zero (alignment_discriminator_dvd d) ?_
    rw [fallbackAlignment, Nat.max_zero]
    exact casesAlignment_dvd cases
  | union ⟨_, d, cases, some ⟨_, _, content⟩, _⟩ =>
    refine dvd_max (alignment_discriminator_dvd d) ?_
    rw [Nat.max_comm]
    exact dvd_max_zero (alignment_dvd content) (casesAlignment_dvd cases)
  | struct _ _ | optional _ | reference _ => exact Nat.one_dvd _
termination_by structural l

theorem casesAlignment_dvd (cases : List (Case Layout)) :
    casesAlignment w cases = 0 ∨ casesAlignment w cases ∣ period := by
  match cases with
  | [] => exact Or.inl rfl
  | ⟨_, _, content⟩ :: cases =>
    exact Or.inr (dvd_max_zero (alignment_dvd content) (casesAlignment_dvd cases))
termination_by structural cases

end

end Alignments

section Measures

variable {a : Assumptions} {follow : Reference → Sizing Unit}

theorem unlessUnbounded_apply (step : Sizing Unit) (e : Extent) :
    unlessUnbounded step e = if e.isUnbounded then .ok () e else step e := by
  rw [unlessUnbounded, get_bind_apply]
  cases e.isUnbounded <;> rfl

/-- A step that is left out where there is no bound. -/
theorem regular_of_shifts {step : Sizing Unit} (h : Shifts step) :
    Regular (unlessUnbounded step) where
  grows e e' he hok := by
    rw [unlessUnbounded_apply] at hok
    split at hok
    · cases hok
      exact ⟨Nat.le_refl _, he⟩
    · exact h.grows e e' he hok
  stays := rfl
  periodic e e' k hok hk := by
    rw [unlessUnbounded_apply] at hok ⊢
    split at hok
    · rename_i hunbounded
      cases hok
      have := Extent.isUnbounded_iff.mp hunbounded
      rw [if_pos (Extent.isUnbounded_iff.mpr (by simp only; omega)), Nat.min_eq_right hk]
    · split
      · rename_i hlimit
        have hlimit := Extent.isUnbounded_iff.mp hlimit
        have := h.grows e e' (by omega) hok
        simp only at hlimit
        rw [hlimit, Nat.min_eq_left (by omega)]
      · exact h.periodic e e' k hok hk

theorem regular_unlessUnbounded {step : Sizing Unit} (h : Regular step) :
    Regular (unlessUnbounded step) := regular_of_shifts h.toShifts

mutual

/-- Measuring a layout is a regular step. -/
theorem regular_measureWith (hfollow : ∀ target, Regular (unlessUnbounded (follow target)))
    (l : Layout) : Regular (measureWith a follow l) := by
  match l with
  | primitive p => exact regular_unlessUnbounded (Regular.primitive (size_dvd_period p))
  | string bound =>
    exact regular_unlessUnbounded
      (((Regular.primitive (by decide : 4 ∣ period)).bind (Regular.skip _)).bind (Regular.skip 1))
  | bytes bound =>
    exact regular_unlessUnbounded
      ((Regular.primitive (bytes_dvd_period a.countWidth)).bind (Regular.skip _))
  | enumeration _ _ => exact regular_unlessUnbounded (Regular.primitive (by decide : 4 ∣ period))
  | array element length =>
    exact regular_unlessUnbounded ((regular_measureWith hfollow element).times _)
  | sequence element bound =>
    exact regular_unlessUnbounded ((Regular.primitive (bytes_dvd_period a.countWidth)).bind
      ((regular_measureWith hfollow element).times _))
  | map key value bound =>
    exact regular_unlessUnbounded ((Regular.primitive (bytes_dvd_period a.countWidth)).bind
      (((regular_measureWith hfollow key).bind (regular_measureWith hfollow value)).times _))
  | struct _ members => exact regular_unlessUnbounded (regular_measureMembers hfollow members)
  | union ⟨name, d, cases, none, tagOnly⟩ =>
    refine regular_unlessUnbounded ((Regular.align (alignment_dvd _ _)).bind
      ((Regular.primitive (alignment_discriminator_dvd d)).bind ?_))
    split
    · exact ((merges_measureCases hfollow cases).bind Merges.pure).regular
    · exact Regular.pure
  | union ⟨name, d, cases, some ⟨_, _, content⟩, tagOnly⟩ =>
    refine regular_unlessUnbounded ((Regular.align (alignment_dvd _ _)).bind
      ((Regular.primitive (alignment_discriminator_dvd d)).bind ?_))
    split
    · exact ((merges_measureCases hfollow cases).bind
        (Merges.branch (regular_measureWith hfollow content))).regular
    · exact Regular.pure
  | optional inner =>
    exact regular_unlessUnbounded ((Regular.skip 1).bind (regular_measureWith hfollow inner))
  | reference target => exact hfollow target
termination_by structural l

theorem regular_measureMembers (hfollow : ∀ target, Regular (unlessUnbounded (follow target)))
    (members : List (Member Layout)) : Regular (measureMembers a follow members) := by
  match members with
  | [] => exact Regular.pure
  | ⟨_, content⟩ :: members =>
    exact (regular_measureWith hfollow content).bind (regular_measureMembers hfollow members)
termination_by structural members

theorem merges_measureCases (hfollow : ∀ target, Regular (unlessUnbounded (follow target)))
    (cases : List (Case Layout)) : Merges fun start => measureCases a follow start cases := by
  match cases with
  | [] => exact Merges.pure
  | ⟨_, _, content⟩ :: cases =>
    exact (Merges.branch (regular_measureWith hfollow content)).bind
      (merges_measureCases hfollow cases)
termination_by structural cases

end

theorem shifts_throw (fault : Fault) : Shifts (throw fault) :=
  ⟨fun _ _ _ hok => (nomatch hok), fun _ _ _ hok => (nomatch hok)⟩

/-- Measuring a layout through references is a regular step. -/
theorem regular_measure (types : Lookup) (a : Assumptions) (budget : Nat)
    (visiting : List (Nat × Role)) (l : Layout) : Regular (measure types a budget visiting l) := by
  induction budget generalizing visiting l with
  | zero => exact regular_measureWith (fun _ => regular_unlessUnbounded Regular.unbounded) l
  | succ budget ih =>
    refine regular_measureWith (fun target => ?_) l
    split
    · exact regular_unlessUnbounded Regular.unbounded
    · cases types target.id target.role with
      | ok layout => exact regular_unlessUnbounded (ih _ layout)
      | error fault => exact regular_of_shifts (shifts_throw fault)

end Measures

end Layout

end Cdr
