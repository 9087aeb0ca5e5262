import Cdr.Proofs.Keys
import Cdr.Proofs.SizeBounds

/-! The threshold between raw and digested keyhashes.  A type whose longest key is measured at more
than sixteen bytes has digests as keyhashes, and the keyhash of any other type is the front of the
padded key.  It is the whole of that key where the measure bounds the key, and the measure bounds
all short keys just under the configurations that assume unbounded collections to be long enough. -/

namespace Cdr.Registry

section Sizes

variable {r : Registry} {h : Handle} {v : Value} {k u : List UInt8} {size : Nat}

/-- The size of the longest key is the measure of the layout of the keys. -/
theorem Sound.measure_of_keyLayout (hr : r.Sound) (hsize : r.maxKeySize h = .ok size) {l : Layout}
    (hl : r.keyLayout h = .ok l) :
    l.measure r.catalog.layout ⟨r.config.countWidth, r.config.maxUnboundedLength⟩
      r.config.maxDepth [] Extent.zero = .ok () ⟨size⟩ := by
  obtain ⟨-, -, hcatalog⟩ := keyLayout_eq_ok.mp hl
  obtain ⟨l', hl', hmeasure⟩ :=
    Catalog.measureKey_eq_ok.mp (hr.sized.measureKey (maxKeySize_eq_ok.mp hsize).2)
  obtain rfl : l = l' := Except.ok.inj (hcatalog.symm.trans hl')
  exact hmeasure

/-- A key is no longer than its measure, where the measure is too small for an unbounded collection
that is longer than is assumed. -/
theorem Sound.length_unpaddedKey_le (hr : r.Sound) (hsize : r.maxKeySize h = .ok size)
    (hsmall : size < r.config.countWidth.bytes + r.config.maxUnboundedLength)
    (hlimit : size < Extent.limit) (hu : r.unpaddedKey h v = .ok u) : u.length ≤ size := by
  obtain ⟨l, b', hl, hencode⟩ := unpaddedKey_eq_ok hu
  obtain ⟨hwrite, rfl⟩ := Key.encode_eq_ok hencode
  obtain ⟨-, hcursor, -, horigin, -⟩ := Key.prepare_eq (Buffer.ofCapacity r.config.initialCapacity)
  have hlength := Key.length_of_write (hr.roundTrips_keyLayout hl v) hwrite
  -- The measure covers what is written.
  have hmeasure := hr.measure_of_keyLayout hsize hl
  have hcovers : Sizing.Covers (size + 1)
      (l.measure r.catalog.layout ⟨r.config.countWidth, r.config.maxUnboundedLength⟩
        r.config.maxDepth []) (r.context.write l v) :=
    Layout.covers_write (by omega) (fun _ _ => Or.inr hsmall) r.config.maxDepth [] l v
      (Layout.assumed_true r.catalog.layout r.config.maxDepth l v)
  obtain ⟨offset, hat, hle⟩ := hcovers.bounds ⟨horigin, by rw [hcursor]⟩ hwrite
    (Nat.zero_le _) (Nat.le_refl 0) hmeasure (Nat.lt_succ_self _)
  have := hat.cursor_eq
  simp only at hle
  omega

theorem keyHash_eq_ok (hu : r.unpaddedKey h v = .ok u) (hsize : r.maxKeySize h = .ok size) :
    r.keyHash h v = .ok (KeyHash.ofKey (KeyHashMode.ofMaxKeySize size) u) := by
  obtain ⟨b', hstep⟩ := onNewBuffer_eq_ok hu
  have hmode : r.keyHashMode h = .ok (KeyHashMode.ofMaxKeySize size) := by
    rw [keyHashMode, hsize]
    rfl
  have hhash : r.writeKeyHash h v (Buffer.ofCapacity r.config.initialCapacity) =
      .ok (KeyHash.ofKey (KeyHashMode.ofMaxKeySize size) u) b' := by
    rw [writeKeyHash, hmode]
    exact Coding.bind_eq_ok.mpr ⟨u, b', hstep, rfl⟩
  rw [keyHash, onNewBuffer, hhash]

theorem key_of_unpaddedKey (hu : r.unpaddedKey h v = .ok u) : r.key h v = .ok (padKey u) := by
  obtain ⟨b', hstep⟩ := onNewBuffer_eq_ok hu
  have hkey : r.writePaddedKey h v (Buffer.ofCapacity r.config.initialCapacity) =
      .ok (padKey u) b' := Coding.bind_eq_ok.mpr ⟨u, b', hstep, rfl⟩
  rw [key, onNewBuffer, hkey]

theorem exists_maxKeySize (hu : r.unpaddedKey h v = .ok u) : ∃ size, r.maxKeySize h = .ok size := by
  obtain ⟨l, b', hl, -⟩ := unpaddedKey_eq_ok hu
  obtain ⟨size, hsize, -⟩ := keyLayout_eq_ok.mp hl
  exact ⟨size, hsize⟩

end Sizes

/-- The keyhash of a value is its key of sixteen bytes if no key of its type is measured to be
longer, and the digest of the key without padding otherwise. -/
def ThresholdLaw (r : Registry) (h : Handle) (v : Value) : Prop :=
  ∀ k, r.key h v = .ok k → ∃ size u hash, r.maxKeySize h = .ok size ∧
    r.unpaddedKey h v = .ok u ∧ r.keyHash h v = .ok hash ∧
    (size ≤ keyHashSize → k.length = keyHashSize ∧ hash.bytes = k) ∧
    (keyHashSize < size → hash.bytes = Digest.Md5.digest u)

/-- The keyhash of a value is the front of its key, or the digest of its key without padding. -/
theorem keyHash_of_key {r : Registry} {h : Handle} {v : Value} {k : List UInt8}
    (hk : r.key h v = .ok k) :
    ∃ size u hash, r.maxKeySize h = .ok size ∧ r.unpaddedKey h v = .ok u ∧ k = padKey u ∧
      r.keyHash h v = .ok hash ∧ (size ≤ keyHashSize → hash.bytes = k.take keyHashSize) ∧
      (keyHashSize < size → hash.bytes = Digest.Md5.digest u) := by
  obtain ⟨u, hu, rfl⟩ := key_eq_ok hk
  obtain ⟨size, hsize⟩ := exists_maxKeySize hu
  refine ⟨size, u, _, hsize, hu, rfl, keyHash_eq_ok hu hsize, fun hle => ?_, fun hlt => ?_⟩
  · rw [KeyHashMode.ofMaxKeySize, if_pos hle]
    rfl
  · rw [KeyHashMode.ofMaxKeySize, if_neg (by omega)]
    rfl

/-- The law holds where unbounded collections are assumed to be long enough. -/
theorem Sound.thresholdLaw {r : Registry} (hr : r.Sound)
    (hlong : keyHashSize < r.config.countWidth.bytes + r.config.maxUnboundedLength) (h : Handle)
    (v : Value) : r.ThresholdLaw h v := by
  intro k hk
  obtain ⟨size, u, hash, hsize, hu, rfl, hhash, hraw, hdigest⟩ := keyHash_of_key hk
  refine ⟨size, u, hash, hsize, hu, hhash, fun hle => ?_, hdigest⟩
  have hshort := hr.length_unpaddedKey_le hsize (by omega)
    (Nat.lt_of_le_of_lt hle (by decide)) hu
  have hlength : (padKey u).length = keyHashSize := by
    rw [length_padKey]
    omega
  refine ⟨hlength, ?_⟩
  rw [hraw hle, List.take_of_length_le (by omega)]

/-- A type that holds an unbounded byte string. -/
def blob : Declaration :=
  { name := "Blob"
    body := .struct [⟨"data", .bytes none⟩] }

/-- Seventeen bytes, which do not fit a keyhash. -/
def seventeen : List UInt8 := [0, 1, 2, 3, 4, 5, 6, 7, 8, 9, 10, 11, 12, 13, 14, 15, 16]

theorem maxKeySize_blob (config : Config) :
    (afterRegister blob { config := config }).maxKeySize ⟨0, "Blob"⟩ =
      .ok (min Extent.limit (config.countWidth.bytes + config.maxUnboundedLength)) := by
  obtain ⟨order, width, capacity, length, depth⟩ := config
  cases width <;> cases depth <;> rfl

/-- The key of a byte string is its count and its bytes, whatever length is assumed. -/
theorem unpaddedKey_blob (config : Config) :
    (afterRegister blob { config := config }).unpaddedKey ⟨0, "Blob"⟩
        (.struct [("data", .bytes seventeen)]) =
      .ok (ByteOrder.big.encode config.countWidth.bytes 17 ++ seventeen) := by
  obtain ⟨hlist, hcursor, hlength, horigin, horder⟩ :=
    Key.prepare_eq (Buffer.ofCapacity config.initialCapacity)
  have hlays := (Coding.Lays.putWord config.countWidth.bytes 17).bind fun _ =>
    Coding.Lays.put seventeen
  obtain ⟨-, hstores⟩ := hlays (b := Key.prepare (Buffer.ofCapacity config.initialCapacity))
    (by omega) rfl
  have hbytes := hstores.toList_eq (by omega) (by omega)
  have hgap : gap config.countWidth.bytes 0 = 0 := by
    cases config.countWidth <;> rfl
  simp only [hlist, hcursor, horigin, horder, Nat.sub_zero, List.nil_append, Image.bytes_append,
    Image.bytes_word, Image.bytes_raw, hgap, List.replicate_zero] at hbytes
  rw [← hbytes]
  obtain ⟨order, width, capacity, length, depth⟩ := config
  cases width <;> cases depth <;> rfl

/-- Every keyhash is the front of the key or its digest.  It is the whole key for all types with
short measures just where the bytes that an unbounded byte string is assumed to take do not fit a
keyhash. -/
theorem keyHash_threshold {config : Config} :
    (∀ r, Reachable config r → ∀ h v k, r.key h v = .ok k → ∃ size u hash,
      r.maxKeySize h = .ok size ∧ r.unpaddedKey h v = .ok u ∧ k = padKey u ∧
        r.keyHash h v = .ok hash ∧ (size ≤ keyHashSize → hash.bytes = k.take keyHashSize) ∧
        (keyHashSize < size → hash.bytes = Digest.Md5.digest u)) ∧
      ((∀ r, Reachable config r → ∀ h v, r.ThresholdLaw h v) ↔
        keyHashSize < config.countWidth.bytes + config.maxUnboundedLength) := by
  refine ⟨fun r _ h v k hk => keyHash_of_key hk, fun hlaw => ?_, fun hlong r hr h v => ?_⟩
  · have hu := unpaddedKey_blob config
    have hk : (afterRegister blob { config := config }).key ⟨0, "Blob"⟩
        (.struct [("data", .bytes seventeen)]) = _ := key_of_unpaddedKey hu
    obtain ⟨size, u, hash, hsize, -, -, hraw, -⟩ := hlaw _ (Reachable.new.register blob) _ _ _ hk
    rw [maxKeySize_blob, Except.ok.injEq] at hsize
    -- A measure within a keyhash would make a key of at least seventeen bytes fit sixteen.
    by_contra hshort
    have hlength := (hraw (by omega)).1
    rw [length_padKey, List.length_append, ByteOrder.length_encode] at hlength
    have : seventeen.length = 17 := rfl
    have : keyHashSize = 16 := rfl
    omega
  · refine hr.sound.thresholdLaw ?_ h v
    rwa [hr.config_eq]

/-- A key of nineteen bytes, of a type whose keys are measured at ten bytes, loses its last three in
the keyhash. -/
theorem keyHash_blob :
    let r := afterRegister blob { config := { maxUnboundedLength := 8 } }
    let v := Value.struct [("data", .bytes seventeen)]
    r.maxKeySize ⟨0, "Blob"⟩ = .ok 10 ∧ r.key ⟨0, "Blob"⟩ v = .ok (0 :: 17 :: seventeen) ∧
      (r.keyHash ⟨0, "Blob"⟩ v).map (·.bytes) = .ok (0 :: 17 :: seventeen.take 14) ∧
      ¬ r.ThresholdLaw ⟨0, "Blob"⟩ v := by
  intro r v
  have hk : r.key ⟨0, "Blob"⟩ v = .ok (0 :: 17 :: seventeen) := by decide
  have hsize : r.maxKeySize ⟨0, "Blob"⟩ = .ok 10 := by decide
  refine ⟨hsize, hk, by decide, fun hlaw => ?_⟩
  obtain ⟨size, u, hash, hsize', -, -, hraw, -⟩ := hlaw _ hk
  obtain rfl : 10 = size := Except.ok.inj (hsize.symm.trans hsize')
  exact absurd (hraw (by decide)).1 (by decide)

end Cdr.Registry
