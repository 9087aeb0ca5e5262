import Cdr.Proofs.Repeating
import Cdr.Proofs.Storing

/-! Measures of what is written.  A measure bounds a write if the writer, starting no further than
the extent, ends no further than the measure ends, as long as that lies below a cap.  A measure
covers a write if moreover the write leaves the cursor where it is wherever the measure does so with
the extent: that is what lets a collection of empty elements be longer than the measure assumes. -/

namespace Cdr

/-- The cursor is `offset` bytes behind the origin. -/
structure Buffer.At (b : Buffer) (origin offset : Nat) : Prop where
  origin_eq : b.origin = origin
  cursor_eq : b.cursor = origin + offset

theorem Buffer.Stores.at {b b' : Buffer} {bytes : List UInt8} (h : b.Stores b' bytes)
    {origin offset : Nat} (hat : b.At origin offset) : b'.At origin (offset + bytes.length) :=
  ⟨by rw [h.origin, hat.origin_eq], by rw [h.cursor, hat.cursor_eq, Nat.add_assoc]⟩

theorem Coding.Lays.at {step : Coding Unit} {fact : Prop} {image : Image}
    (h : Coding.Lays step fact image) {b b' : Buffer} {origin offset : Nat}
    (hat : b.At origin offset) (hok : step b = .ok () b') :
    fact ∧ b'.At origin (offset + (image.bytes b.order offset).length) := by
  have horigin := hat.origin_eq
  have hcursor := hat.cursor_eq
  obtain ⟨hfact, hstores⟩ := h (by omega) hok
  rw [horigin, hcursor, Nat.add_sub_cancel_left] at hstores
  exact ⟨hfact, hstores.at hat⟩

/-- The steps one after the other. -/
def Coding.inTurn : List (Coding Unit) → Coding Unit
  | [] => pure ()
  | step :: steps => do
    step
    inTurn steps

theorem Coding.inField_eq_ok {step : Coding Unit} {field : String} {b b' : Buffer} :
    Coding.inField field step b = .ok () b' ↔ step b = .ok () b' := by
  unfold Coding.inField
  cases step b <;> simp

theorem Extent.offset_align {size : Nat} {e : Extent} (h : (e.align size).offset < limit) :
    (e.align size).offset = e.offset + gap size e.offset := by
  by_cases hone : size ≤ 1
  · simp [Extent.align, gap, hone]
  by_cases hlimit : e.isUnbounded = true
  · have := isUnbounded_iff.mp hlimit
    simp only [Extent.align, hlimit, or_true, if_true] at h
    omega
  have halign : e.align size =
      if e.offset % size = 0 then e else e.skip (size - e.offset % size) := by
    simp [Extent.align, hone, hlimit]
  have hlt := Nat.mod_lt e.offset (by omega : 0 < size)
  rw [halign] at h ⊢
  rw [gap, if_neg hone]
  by_cases hzero : e.offset % size = 0
  · rw [if_pos hzero, hzero, Nat.sub_zero, Nat.mod_self, Nat.add_zero]
  · rw [if_neg hzero, offset_skip] at h
    rw [if_neg hzero, offset_skip, Nat.mod_eq_of_lt (by omega : size - e.offset % size < size)]
    omega

namespace Sizing

open Extent

/-- Below the cap the writer ends no further than the measure. -/
def Bounds (cap : Nat) (measure : Sizing Unit) (write : Coding Unit) : Prop :=
  ∀ ⦃b b' : Buffer⦄ ⦃origin offset : Nat⦄ ⦃e e' : Extent⦄, b.At origin offset →
    write b = .ok () b' → e.offset ≤ limit → offset ≤ e.offset → measure e = .ok () e' →
    e'.offset < cap → ∃ offset', b'.At origin offset' ∧ offset' ≤ e'.offset

/-- The step moves every extent that has a bound. -/
def Moves (measure : Sizing Unit) : Prop := ∀ e, e.offset < limit → measure e ≠ .ok () e

/-- Below the cap the writer ends no further than the measure, and writes nothing if the measure
finds nothing to write. -/
structure Covers (cap : Nat) (measure : Sizing Unit) (write : Coding Unit) : Prop where
  bounds : Bounds cap measure write
  silent : ∀ ⦃b b' : Buffer⦄ ⦃origin offset : Nat⦄ ⦃e : Extent⦄, e.offset < limit →
    measure e = .ok () e → b.At origin offset → write b = .ok () b' → b'.At origin offset

variable {cap : Nat} {measure next : Sizing Unit} {write rest : Coding Unit}

theorem Moves.bind_left (h : Moves measure) (hm : Regular measure) (hn : Regular next) :
    Moves (measure >>= fun _ => next) := by
  intro e he hok
  obtain ⟨f, hf, hnext⟩ := bind_eq_ok.mp hok
  obtain ⟨hle, hflimit⟩ := hm.grows e f (by omega) hf
  obtain ⟨hle', -⟩ := hn.grows f e hflimit hnext
  obtain rfl : f = e := congrArg Extent.mk (by omega : f.offset = e.offset)
  exact h f he hf

theorem Moves.bind_right (h : Moves next) (hm : Regular measure) (hn : Regular next) :
    Moves (measure >>= fun _ => next) := by
  intro e he hok
  obtain ⟨f, hf, hnext⟩ := bind_eq_ok.mp hok
  obtain ⟨hle, hflimit⟩ := hm.grows e f (by omega) hf
  obtain ⟨hle', -⟩ := hn.grows f e hflimit hnext
  obtain rfl : f = e := congrArg Extent.mk (by omega : f.offset = e.offset)
  exact h f he hnext

theorem modify_eq_ok {f : Extent → Extent} {e e' : Extent} :
    (modify f : Sizing Unit) e = .ok () e' ↔ f e = e' := by
  show EStateM.Result.ok () (f e) = _ ↔ _
  simp

theorem moves_skip {n : Nat} (hn : 0 < n) : Moves (modify (Extent.skip n)) := by
  intro e he hok
  have := congrArg Extent.offset (modify_eq_ok.mp hok)
  rw [offset_skip] at this
  omega

theorem moves_primitive {size : Nat} (hsize : size ∣ period) :
    Moves (modify (Extent.primitive size)) :=
  Moves.bind_right (moves_skip (Nat.pos_of_dvd_of_pos hsize (by decide))) (Regular.align hsize)
    (Regular.skip size)

theorem moves_unbounded : Moves (set Extent.unbounded) := by
  rintro e he ⟨⟩
  exact absurd he (by simp [unbounded])

namespace Bounds

protected theorem pure : Bounds cap (pure ()) (pure ()) := by
  rintro b _ origin offset e _ hat ⟨⟩ - hle ⟨⟩ -
  exact ⟨offset, hat, hle⟩

/-- Beyond the cap nothing is promised. -/
theorem of_exceeds (h : ∀ e e', e.offset ≤ limit → measure e = .ok () e' → cap ≤ e'.offset) :
    Bounds cap measure write := by
  intro _ _ _ _ e e' _ _ he _ hm hcap
  exact absurd (h e e' he hm) (by omega)

theorem bind (h : Bounds cap measure write) (hr : Bounds cap next rest) (hm : Regular measure)
    (hn : Regular next) :
    Bounds cap (measure >>= fun _ => next) (write >>= fun _ => rest) := by
  intro b b' origin offset e e' hat hok he hle hmeasure hcap
  obtain ⟨⟨⟩, mid, hw, hrest⟩ := Coding.bind_eq_ok.mp hok
  obtain ⟨f, hf, hnext⟩ := bind_eq_ok.mp hmeasure
  obtain ⟨-, hflimit⟩ := hm.grows e f he hf
  obtain ⟨hle', -⟩ := hn.grows f e' hflimit hnext
  obtain ⟨offset', hat', hoff⟩ := h hat hw he hle hf (by omega)
  exact hr hat' hrest hflimit hoff hnext hcap

/-- A measure that goes on bounds what is written before. -/
theorem bind_pure (h : Bounds cap measure write) (hm : Regular measure) (hn : Regular next) :
    Bounds cap (measure >>= fun _ => next) write := by
  intro b b' origin offset e e' hat hok he hle hmeasure hcap
  obtain ⟨f, hf, hnext⟩ := bind_eq_ok.mp hmeasure
  obtain ⟨-, hflimit⟩ := hm.grows e f he hf
  obtain ⟨hle', -⟩ := hn.grows f e' hflimit hnext
  obtain ⟨offset', hat', hoff⟩ := h hat hok he hle hf (by omega)
  exact ⟨offset', hat', by omega⟩

end Bounds

theorem Moves.covers (h : Moves measure) (hb : Bounds cap measure write) :
    Covers cap measure write :=
  ⟨hb, fun _ _ _ _ e he hm => absurd hm (h e he)⟩

namespace Covers

protected theorem pure : Covers cap (pure ()) (pure ()) := by
  refine ⟨Bounds.pure, ?_⟩
  rintro b _ origin offset e - - hat ⟨⟩
  exact hat

theorem fail {cause : Cause} : Covers cap measure (Coding.fail cause) :=
  ⟨fun _ _ _ _ _ _ _ hok => (nomatch hok), fun _ _ _ _ _ _ _ _ hok => (nomatch hok)⟩

/-- A measure that fails covers everything. -/
theorem measure_throw {fault : Fault} : Covers cap (MonadExcept.throw fault) write :=
  ⟨fun _ _ _ _ _ _ _ _ _ _ hm => (nomatch hm), fun _ _ _ _ _ _ hm => (nomatch hm)⟩

/-- What has no bound covers everything. -/
theorem unbounded (hcap : cap ≤ limit) : Covers cap (set Extent.unbounded) write :=
  moves_unbounded.covers <| Bounds.of_exceeds <| by
    rintro e _ - ⟨⟩
    exact hcap

theorem bind (h : Covers cap measure write) (hr : Covers cap next rest) (hm : Regular measure)
    (hn : Regular next) :
    Covers cap (measure >>= fun _ => next) (write >>= fun _ => rest) := by
  refine ⟨h.bounds.bind hr.bounds hm hn, fun b b' origin offset e he hmeasure hat hok => ?_⟩
  obtain ⟨⟨⟩, mid, hw, hrest⟩ := Coding.bind_eq_ok.mp hok
  obtain ⟨f, hf, hnext⟩ := bind_eq_ok.mp hmeasure
  obtain ⟨hle, hflimit⟩ := hm.grows e f (by omega) hf
  obtain ⟨hle', -⟩ := hn.grows f e hflimit hnext
  obtain rfl : f = e := congrArg Extent.mk (by omega : f.offset = e.offset)
  exact hr.silent he hnext (h.silent he hf hat hw) hrest

theorem check {fact : Prop} (h : Coding.Lays write fact Image.nil)
    (hr : fact → Covers cap measure rest) : Covers cap measure (write >>= fun _ => rest) := by
  constructor
  · intro b b' origin offset e e' hat hok
    obtain ⟨⟨⟩, mid, hw, hrest⟩ := Coding.bind_eq_ok.mp hok
    obtain ⟨hfact, hat'⟩ := h.at hat hw
    exact (hr hfact).bounds hat' hrest
  · intro b b' origin offset e he hm hat hok
    obtain ⟨⟨⟩, mid, hw, hrest⟩ := Coding.bind_eq_ok.mp hok
    obtain ⟨hfact, hat'⟩ := h.at hat hw
    exact (hr hfact).silent he hm hat' hrest

theorem inField (h : Covers cap measure write) (field : String) :
    Covers cap measure (Coding.inField field write) := by
  constructor
  · intro b b' origin offset e e' hat hok
    exact h.bounds hat (Coding.inField_eq_ok.mp hok)
  · intro b b' origin offset e he hm hat hok
    exact h.silent he hm hat (Coding.inField_eq_ok.mp hok)

theorem put {bytes : List UInt8} {n : Nat} (hn : bytes.length ≤ n) (hcap : cap ≤ limit) :
    Covers cap (modify (Extent.skip n)) (Coding.put bytes) := by
  constructor
  · intro b b' origin offset e e' hat hok he hle hm hlt
    obtain ⟨-, hat'⟩ := (Coding.Lays.put bytes).at hat hok
    refine ⟨_, hat', ?_⟩
    rw [← modify_eq_ok.mp hm, offset_skip] at hlt ⊢
    simp only [Image.bytes_raw]
    omega
  · intro b b' origin offset e he hm hat hok
    obtain ⟨-, hat'⟩ := (Coding.Lays.put bytes).at hat hok
    have hzero := congrArg Extent.offset (modify_eq_ok.mp hm)
    rw [offset_skip] at hzero
    simp only [Image.bytes_raw] at hat'
    rwa [show bytes.length = 0 by omega, Nat.add_zero] at hat'

end Covers

/-- Padding is greatest where the offset is. -/
theorem bounds_align (size : Nat) (hcap : cap ≤ limit) :
    Bounds cap (modify (Extent.align size)) (Coding.align size) := by
  intro b b' origin offset e e' hat hok he hle hm hlt
  obtain ⟨-, hat'⟩ := (Coding.Lays.align size).at hat hok
  refine ⟨_, hat', ?_⟩
  have halign := modify_eq_ok.mp hm
  have hgap : e'.offset = e.offset + gap size e.offset := by
    rw [← halign] at hlt ⊢
    exact offset_align (by omega)
  have hmono := @add_gap_mono size _ _ hle
  rw [hgap]
  simpa [Image.padding] using hmono

/-- A number at its alignment. -/
theorem Covers.putWord {size : Nat} (hsize : size ∣ period) (n : Nat) (hcap : cap ≤ limit) :
    Covers cap (modify (Extent.primitive size)) (Coding.putWord size n) := by
  have hbytes : ∀ b : Buffer, Coding.putWord size n b =
      (Coding.align size >>= fun _ => fun b => Coding.put (b.order.encode size n) b) b :=
    fun _ => rfl
  refine (moves_primitive hsize).covers ?_
  intro b b' origin offset e e' hat hok he hle hm hlt
  rw [hbytes] at hok
  obtain ⟨⟨⟩, mid, halign, hput⟩ := Coding.bind_eq_ok.mp hok
  obtain ⟨f, hf, hskip⟩ := bind_eq_ok.mp
    (show (modify (Extent.align size) >>= fun _ => modify (Extent.skip size) : Sizing Unit) e =
      .ok () e' from hm)
  obtain ⟨hgrow, hflimit⟩ := (Regular.align hsize).grows e f he hf
  obtain ⟨hgrow', -⟩ := (Regular.skip size).grows f e' hflimit hskip
  obtain ⟨offset', hat', hoff⟩ := bounds_align size hcap hat halign he hle hf (by omega)
  exact (Covers.put (by simp) hcap).bounds hat' hput hflimit hoff hskip hlt

section Collections

variable {steps : List (Coding Unit)} {count : Nat}

/-- What is written below the cap element by element, with the measure taken as often or more. -/
theorem Bounds.inTurn (hm : Regular measure) (hcap : cap ≤ limit)
    (h : ∀ step ∈ steps, Bounds cap measure step) (hle : steps.length ≤ count) :
    Bounds cap (naive measure count) (Coding.inTurn steps) := by
  induction steps generalizing count with
  | nil =>
    rintro b _ origin offset e e' hat ⟨⟩ he hoff hok -
    exact ⟨offset, hat, Nat.le_trans hoff ((hm.naive count).grows e e' he hok).1⟩
  | cons step steps ih =>
    obtain ⟨hstep, hrest⟩ := List.forall_mem_cons.mp h
    rw [List.length_cons] at hle
    obtain ⟨count, rfl⟩ : ∃ n, count = n + 1 := ⟨count - 1, by omega⟩
    intro b b' origin offset e e' hat hw he hoff hok hlt
    rw [naive_succ] at hok
    split at hok
    · rename_i hunbounded
      cases hok
      have := isUnbounded_iff.mp hunbounded
      omega
    · exact hstep.bind (ih hrest (by omega)) hm (hm.naive count) hat hw he hoff hok hlt

/-- Nothing is written element by element if the measure stays where it is. -/
theorem silent_inTurn (h : ∀ step ∈ steps, Covers cap measure step) {e : Extent}
    (he : e.offset < limit) (hstill : measure e = .ok () e) {b b' : Buffer} {origin offset : Nat}
    (hat : b.At origin offset) (hok : Coding.inTurn steps b = .ok () b') : b'.At origin offset := by
  induction steps generalizing b with
  | nil =>
    cases hok
    exact hat
  | cons step steps ih =>
    obtain ⟨hstep, hrest⟩ := List.forall_mem_cons.mp h
    obtain ⟨⟨⟩, mid, hw, hok⟩ := Coding.bind_eq_ok.mp hok
    exact ih hrest (hstep.silent he hstill hat hw) hok

/-- Among more rounds than the offset grows by there is one that does not move it. -/
theorem Regular.exists_still (h : Regular measure) {e e' : Extent} (he : e.offset ≤ limit)
    (hok : Sizing.naive measure count e = .ok () e') (hlimit : e'.offset < limit)
    (hfew : e'.offset < e.offset + count) : ∃ f, f.offset < limit ∧ measure f = .ok () f := by
  induction count generalizing e with
  | zero =>
    cases hok
    omega
  | succ count ih =>
    rw [naive_succ] at hok
    split at hok
    · rename_i hunbounded
      cases hok
      have := isUnbounded_iff.mp hunbounded
      omega
    · obtain ⟨f, hf, hrest⟩ := bind_eq_ok.mp hok
      obtain ⟨hle, hflimit⟩ := h.grows e f he hf
      obtain ⟨hle', -⟩ := (h.naive count).grows f e' hflimit hrest
      by_cases hstill : f.offset = e.offset
      · obtain rfl : f = e := congrArg Extent.mk hstill
        exact ⟨f, by omega, hf⟩
      · exact ih hflimit hrest (by omega)

/-- An array: as many elements as are measured. -/
theorem Covers.array (hm : Regular measure) (hcap : cap ≤ limit)
    (h : ∀ step ∈ steps, Covers cap measure step) (hcount : steps.length = count) :
    Covers cap (times count measure) (Coding.inTurn steps) := by
  constructor
  · intro b b' origin offset e e' hat hw he hoff hok
    rw [hm.times_eq count he] at hok
    exact Bounds.inTurn hm hcap (fun step hs => (h step hs).bounds) (by omega) hat hw he hoff hok
  · intro b b' origin offset e he hok hat hw
    rw [hm.times_eq count (by omega)] at hok
    cases steps with
    | nil =>
      cases hw
      exact hat
    | cons step steps =>
      obtain ⟨f, hflimit, hstill⟩ := hm.exists_still (by omega) hok he
        (by rw [← hcount, List.length_cons]; omega)
      exact silent_inTurn h hflimit hstill hat hw

/-- A collection behind its count.  It is as long as is assumed at most, or the cap is so low that
the elements are empty. -/
theorem Covers.collection {width : CountWidth} {m : Nat} (hm : Regular measure) (hcap : cap ≤ limit)
    (h : ∀ step ∈ steps, Covers cap measure step)
    (hcount : steps.length ≤ count ∨ cap ≤ width.bytes + count) :
    Covers cap (modify (Extent.primitive width.bytes) >>= fun _ => times count measure)
      (Coding.putWord width.bytes m >>= fun _ => Coding.inTurn steps) := by
  have hwidth := Layout.bytes_dvd_period width
  refine (moves_primitive hwidth).bind_left (Regular.primitive hwidth) (hm.times count) |>.covers ?_
  rcases hcount with hle | hsmall
  · refine (Covers.putWord hwidth m hcap).bounds.bind ?_ (Regular.primitive hwidth) (hm.times count)
    intro b b' origin offset e e' hat hw he hoff hok
    rw [hm.times_eq count he] at hok
    exact Bounds.inTurn hm hcap (fun step hs => (h step hs).bounds) hle hat hw he hoff hok
  · intro b b' origin offset e e' hat hw he hoff hok hlt
    obtain ⟨⟨⟩, mid, hword, heach⟩ := Coding.bind_eq_ok.mp hw
    obtain ⟨f, hf, htimes⟩ := bind_eq_ok.mp hok
    obtain ⟨-, hflimit⟩ := (Regular.primitive hwidth).grows e f he hf
    obtain ⟨hle, -⟩ := (hm.times count).grows f e' hflimit htimes
    obtain ⟨offset', hat', hoff'⟩ :=
      (Covers.putWord hwidth m hcap).bounds hat hword he hoff hf (by omega)
    -- The count alone takes the extent so near to the cap that some element moves it no further.
    have hwide : width.bytes ≤ f.offset := by
      have := congrArg Extent.offset (modify_eq_ok.mp hf)
      rw [Extent.primitive, offset_skip] at this
      omega
    rw [hm.times_eq count hflimit] at htimes
    obtain ⟨still, hstill, hnone⟩ := hm.exists_still hflimit htimes (by omega) (by omega)
    exact ⟨offset', silent_inTurn h hstill hnone hat' heach, by omega⟩

end Collections

section Branches

/-- Merged branches end no earlier than the content does from their start. -/
def Includes (branches : Extent → Sizing Unit) (content : Sizing Unit) : Prop :=
  ∀ start e e', start.offset ≤ limit → e.offset ≤ limit → branches start e = .ok () e' →
    ∃ f, content start = .ok () f ∧ f.offset ≤ e'.offset

namespace Includes

variable {branches others : Extent → Sizing Unit} {content : Sizing Unit}

protected theorem branch (content : Sizing Unit) :
    Includes (fun start => branch start content) content := by
  intro start e e' _ _ hok
  obtain ⟨f, hf, rfl⟩ := branch_eq_ok.mp hok
  exact ⟨f, hf, Nat.le_max_right _ _⟩

theorem bind_left (h : Includes branches content) (hb : Merges branches) (ho : Merges others) :
    Includes (fun start => branches start >>= fun _ => others start) content := by
  intro start e e' hs he hok
  obtain ⟨g, hg, hrest⟩ := bind_eq_ok.mp hok
  obtain ⟨-, hglimit⟩ := hb.grows start e g hs he hg
  obtain ⟨hle, -⟩ := ho.grows start g e' hs hglimit hrest
  obtain ⟨f, hf, hoff⟩ := h start e g hs he hg
  exact ⟨f, hf, by omega⟩

theorem bind_right (h : Includes others content) (hb : Merges branches) :
    Includes (fun start => branches start >>= fun _ => others start) content := by
  intro start e e' hs he hok
  obtain ⟨g, hg, hrest⟩ := bind_eq_ok.mp hok
  exact h start g e' hs (hb.grows start e g hs he hg).2 hrest

/-- What is written as one of several branches. -/
theorem bounds (h : Includes branches content) (hc : Bounds cap content write) :
    Bounds cap (get >>= branches) write := by
  intro b b' origin offset e e' hat hw he hoff hok hlt
  obtain ⟨f, hf, hle⟩ := h e e e' he he hok
  obtain ⟨offset', hat', hoff'⟩ := hc hat hw he hoff hf (by omega)
  exact ⟨offset', hat', by omega⟩

end Includes

end Branches

theorem Covers.unlessUnbounded (h : Covers cap measure write) (hcap : cap ≤ limit) :
    Covers cap (Layout.unlessUnbounded measure) write := by
  constructor
  · intro b b' origin offset e e' hat hw he hoff hok hlt
    rw [Layout.unlessUnbounded_apply] at hok
    split at hok
    · rename_i hunbounded
      cases hok
      have := isUnbounded_iff.mp hunbounded
      omega
    · exact h.bounds hat hw he hoff hok hlt
  · intro b b' origin offset e he hok hat hw
    rw [Layout.unlessUnbounded_apply, if_neg] at hok
    · exact h.silent he hok hat hw
    · intro hunbounded
      have := isUnbounded_iff.mp hunbounded
      omega

end Sizing

end Cdr
