import Cdr.Proofs.Repeating
import Mathlib.Logic.Function.Iterate

/-! Repetition as iteration.  A stride is a step built from the moves of an extent, from branches
and from repetitions inside it.  It cannot fail, and the fast repetition of a stride leaves what the
stride leaves when it is taken again and again, from every offset, the greatest included.  The same
holds of the walk that measures a layout, whatever its references lead to. -/

namespace Cdr

namespace Sizing

open Extent

/-- The step, `count` times in a row, whether there is a bound or not. -/
def inARow (step : Sizing Unit) : Nat → Sizing Unit
  | 0 => pure ()
  | count + 1 => do
    step
    inARow step count

end Sizing

/-- A step that moves an extent. -/
inductive Stride where
  | skip (n : Nat)
  | align (size : Nat) (fits : size ∈ [1, 2, 4, 8])
  | primitive (size : Nat) (fits : size ∈ [1, 2, 4, 8])
  | saturate
  /-- One stride after the other. -/
  | both (first next : Stride)
  /-- The main stride, merged with a branch that starts at the same offset. -/
  | widest (main branch : Stride)
  /-- The stride, `count` times. -/
  | again (count : Nat) (stride : Stride)

namespace Stride

open Sizing

/-- The stride as a step, with fast repetitions. -/
def step : Stride → Sizing Unit
  | skip n => modify (Extent.skip n)
  | align size _ => modify (Extent.align size)
  | primitive size _ => modify (Extent.primitive size)
  | saturate => set Extent.unbounded
  | both first next => do
    step first
    step next
  | widest main branch => do
    let start ← get
    step main
    Sizing.branch start (step branch)
  | again count stride => Sizing.times count (step stride)

/-- Where the stride leads when every repetition in it is taken one by one. -/
def lead : Stride → Extent → Extent
  | skip n => Extent.skip n
  | align size _ => Extent.align size
  | primitive size _ => Extent.primitive size
  | saturate => fun _ => Extent.unbounded
  | both first next => lead next ∘ lead first
  | widest main branch => fun e => (lead main e).merge (lead branch e)
  | again count stride => (lead stride)^[count]

end Stride

namespace Sizing

open Extent

variable {step next : Sizing Unit}

theorem dvd_period_of_mem {size : Nat} (h : size ∈ [1, 2, 4, 8]) : size ∣ period := by
  simp only [List.mem_cons, List.not_mem_nil, or_false] at h
  rcases h with rfl | rfl | rfl | rfl <;> decide

/-- A regular step with a branch from the same start is regular. -/
theorem Regular.widest (h : Regular step) (hn : Regular next) :
    Regular (do let start ← get; step; Sizing.branch start next) where
  grows e e' he hok := by
    obtain ⟨f, hf, hr⟩ := bind_eq_ok.mp hok
    obtain ⟨g, hg, rfl⟩ := branch_eq_ok.mp hr
    have := h.grows e f he hf
    have := hn.grows e g he hg
    simp only [merge]
    omega
  stays := bind_eq_ok.mpr ⟨_, h.stays, branch_eq_ok.mpr ⟨_, hn.stays, by simp [merge, unbounded]⟩⟩
  periodic e e' k hok hk := by
    obtain ⟨f, hf, hr⟩ := bind_eq_ok.mp hok
    obtain ⟨g, hg, rfl⟩ := branch_eq_ok.mp hr
    refine bind_eq_ok.mpr ⟨_, h.periodic e f k hf hk,
      branch_eq_ok.mpr ⟨_, hn.periodic e g k hg hk, ?_⟩⟩
    simp only [merge]
    congr 1
    omega

/-- A regular step stays where there is no bound, so the loop may as well end there. -/
theorem Regular.inARow_eq_naive (h : Regular step) (count : Nat) {e : Extent}
    (he : e.offset ≤ limit) : inARow step count e = Sizing.naive step count e := by
  induction count generalizing e with
  | zero => rfl
  | succ count ih =>
    rw [naive_succ]
    show (step >>= fun _ => inARow step count) e = _
    split
    · rename_i hunbounded
      obtain rfl : e = unbounded := congrArg Extent.mk (isUnbounded_iff.mp hunbounded)
      rw [bind_apply, h.stays]
      exact (ih he).trans (naive_of_unbounded step count hunbounded)
    · rw [bind_apply, bind_apply]
      cases hstep : step e with
      | ok _ f => exact ih (h.grows e f he hstep).2
      | error fault f => rfl

/-- The fast repetition of a regular step leaves what the step leaves `count` times in a row, also
where it fails. -/
theorem Regular.times_eq_rows (h : Regular step) (count : Nat) (start : UInt64) :
    Sizing.times count step ⟨start.toNat⟩ = inARow step count ⟨start.toNat⟩ := by
  have hstart : start.toNat ≤ limit := by
    have := start.toNat_lt
    simp only [limit]
    omega
  rw [h.times_eq count hstart, h.inARow_eq_naive count hstart]

theorem inARow_eq_iterate {lead : Extent → Extent} (h : Regular step)
    (hlead : ∀ e, e.offset ≤ limit → step e = .ok () (lead e)) (count : Nat) {e : Extent}
    (he : e.offset ≤ limit) : inARow step count e = .ok () (lead^[count] e) := by
  induction count generalizing e with
  | zero => rfl
  | succ count ih =>
    have hstep := hlead e he
    show (step >>= fun _ => inARow step count) e = _
    rw [bind_apply, hstep, Function.iterate_succ_apply]
    exact ih (h.grows e _ he hstep).2

end Sizing

namespace Stride

open Sizing Extent

theorem regular_step (s : Stride) : Regular s.step := by
  induction s with
  | skip n => exact Regular.skip n
  | align size fits => exact Regular.align (dvd_period_of_mem fits)
  | primitive size fits => exact Regular.primitive (dvd_period_of_mem fits)
  | saturate => exact Regular.unbounded
  | both first next hfirst hnext => exact hfirst.bind hnext
  | widest main branch hmain hbranch => exact hmain.widest hbranch
  | again count stride ih => exact ih.times count

/-- A stride never fails, and the fast repetitions in it lead where the slow ones do. -/
theorem step_eq_ok (s : Stride) {e : Extent} (he : e.offset ≤ limit) :
    s.step e = .ok () (s.lead e) := by
  induction s generalizing e with
  | skip n => rfl
  | align size fits => rfl
  | primitive size fits => rfl
  | saturate => rfl
  | both first next hfirst hnext =>
    have hstep := hfirst he
    exact bind_eq_ok.mpr ⟨_, hstep, hnext (first.regular_step.grows _ _ he hstep).2⟩
  | widest main branch hmain hbranch =>
    exact bind_eq_ok.mpr ⟨_, hmain he, branch_eq_ok.mpr ⟨_, hbranch he, rfl⟩⟩
  | again count stride ih =>
    have hregular := stride.regular_step
    show Sizing.times count stride.step e = _
    rw [hregular.times_eq count he, ← hregular.inARow_eq_naive count he]
    exact inARow_eq_iterate hregular (fun _ hf => ih hf) count he

end Stride

namespace Sizing

/-- From every start, the fast repetition of a stride leaves what the stride leaves `count` times in
a row, which is its lead iterated.  The fast repetition of the walk that measures the element of a
collection, or the key and the value of an entry, leaves what the walk leaves `count` times in a
row, and fails where that fails. -/
theorem times_eq_inARow (count : Nat) (start : UInt64) :
    (∀ s : Stride, times count s.step ⟨start.toNat⟩ = inARow s.step count ⟨start.toNat⟩ ∧
      inARow s.step count ⟨start.toNat⟩ = .ok () (s.lead^[count] ⟨start.toNat⟩)) ∧
    ∀ (types : Lookup) (a : Layout.Assumptions) (budget : Nat) (visiting : List (Nat × Role)),
      let walk (l : Layout) : Sizing Unit := l.measure types a budget visiting
      (∀ element, times count (walk element) ⟨start.toNat⟩ =
        inARow (walk element) count ⟨start.toNat⟩) ∧
      ∀ key value, times count (do walk key; walk value) ⟨start.toNat⟩ =
        inARow (do walk key; walk value) count ⟨start.toNat⟩ := by
  have hstart : start.toNat ≤ Extent.limit := by
    have := start.toNat_lt
    simp only [Extent.limit]
    omega
  refine ⟨fun s => ⟨s.regular_step.times_eq_rows count start, ?_⟩,
    fun types a budget visiting => ?_⟩
  · exact inARow_eq_iterate s.regular_step (fun _ he => s.step_eq_ok he) count hstart
  · have hregular := Layout.regular_measure types a budget visiting
    exact ⟨fun element => (hregular element).times_eq_rows count start,
      fun key value => ((hregular key).bind (hregular value)).times_eq_rows count start⟩

/-- Elements of an odd size come back to a residue before the last of them. -/
example : times 77 (Stride.both (.skip 3) (.primitive 2 (by decide))).step ⟨0⟩ = .ok () ⟨462⟩ := rfl

end Sizing

end Cdr
