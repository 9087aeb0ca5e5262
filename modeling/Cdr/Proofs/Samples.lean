import Cdr.Proofs.Exact

/-! Samples are read back.  What a registry serializes it deserializes to the normal form of the
value, and the reader stops where the writer stood before the final padding. -/

namespace Cdr

namespace Sample

/-- The header fills a new buffer, with the cursor at its end. -/
theorem toList_start (order : ByteOrder) (capacity : Nat) :
    (start order capacity).toList = [0, order.headerFlag, 0, 0] ∧
      (start order capacity).cursor = headerSize ∧ (start order capacity).length = headerSize ∧
      (start order capacity).length ≤ (start order capacity).capacity := by
  have hstores := Buffer.stores_put [0, order.headerFlag, 0, 0] (Buffer.ofCapacity capacity)
  have hnew : (Buffer.ofCapacity capacity).length = 0 ∧ (Buffer.ofCapacity capacity).cursor = 0 :=
    ⟨rfl, rfl⟩
  have hcursor := hstores.cursor
  have hlength := hstores.length (by omega)
  have hroom := hstores.room (by omega)
  have hlist := hstores.toList_eq (by omega) (by omega)
  rw [hnew.2] at hcursor
  rw [hnew.1, hcursor] at hlength
  have hempty : (Buffer.ofCapacity capacity).toList = [] := by simp [Buffer.toList, hnew.1]
  rw [hempty, List.nil_append] at hlist
  unfold start
  generalize (Buffer.ofCapacity capacity).put [0, order.headerFlag, 0, 0] = b at *
  exact ⟨hlist, hcursor, hlength, hroom⟩

theorem rest_opened (order : ByteOrder) (bytes : List UInt8) :
    (opened order bytes).rest = bytes.drop headerSize := by
  have hlist : (opened order bytes).toList = bytes := by
    show ((Buffer.ofBytes bytes).reserve headerSize).toList = bytes
    rw [Buffer.toList_reserve _ (by simp [Buffer.ofBytes, Buffer.capacity]),
      Buffer.toList_ofBytes]
  rw [Buffer.rest, hlist]
  rfl

theorem length_opened (order : ByteOrder) (bytes : List UInt8) :
    (opened order bytes).length = bytes.length :=
  Buffer.length_reserve headerSize (Buffer.ofBytes bytes)

theorem room_opened (order : ByteOrder) (bytes : List UInt8) :
    (opened order bytes).length ≤ (opened order bytes).capacity := by
  have hsize := (Buffer.size_reserve headerSize (Buffer.ofBytes bytes)).2
  rw [length_opened]
  exact hsize

theorem headerOrder_append (order : ByteOrder) (bytes : List UInt8) :
    headerOrder ([0, order.headerFlag, 0, 0] ++ bytes) = .ok order := by
  simp [headerOrder]

theorem headerOrder_of_short {bytes : List UInt8} (h : bytes.length < headerSize) :
    headerOrder bytes = .error (Cause.tooShort headerSize bytes.length 0).fault := by
  match bytes with
  | [] | [_] | [_, _] | [_, _, _] => rfl
  | _ :: _ :: _ :: _ :: _ =>
    simp only [List.length_cons, headerSize] at h
    omega

theorem headerSize_le_of_headerOrder {bytes : List UInt8} {order : ByteOrder}
    (h : headerOrder bytes = .ok order) : headerSize ≤ bytes.length := by
  apply Nat.le_of_not_lt
  intro hshort
  rw [headerOrder_of_short hshort] at h
  cases h

/-- Only the header is asked for the byte order. -/
theorem headerOrder_take {bytes : List UInt8} (h : headerSize ≤ bytes.length) :
    headerOrder (bytes.take headerSize) = headerOrder bytes := by
  match bytes with
  | [] | [_] | [_, _] | [_, _, _] => simp [headerSize] at h
  | _ :: _ :: _ :: _ :: _ => rfl

theorem decode_of_headerOrder {c : Context} {layout : Layout} {order : ByteOrder}
    {bytes : List UInt8} (h : headerOrder bytes = .ok order) :
    decode c layout bytes =
      match c.read layout (opened order bytes) with
      | .ok v _ => .ok v
      | .error fault _ => .error fault := by
  rw [decode, h]
  rfl

theorem decode_eq_ok {c : Context} {layout : Layout} {bytes : List UInt8} {v : Value} :
    decode c layout bytes = .ok v ↔
      ∃ order b, headerOrder bytes = .ok order ∧ c.read layout (opened order bytes) = .ok v b := by
  cases horder : headerOrder bytes with
  | error fault =>
    rw [decode, horder]
    constructor
    · exact fun hok => nomatch hok
    · rintro ⟨_, _, ⟨⟩, _⟩
  | ok order =>
    rw [decode_of_headerOrder horder]
    cases hread : c.read layout (opened order bytes) <;> simp [hread]

/-- What is written behind the header is an image, and the final alignment puts zero bytes behind
that. -/
theorem toList_written {c : Context} {layout : Layout} {order : ByteOrder} {capacity : Nat}
    {v : Value} {fact : Prop} {image : Image} {written : Buffer}
    (hlays : Coding.Lays (c.write layout v) fact image)
    (hok : c.write layout v (start order capacity) = .ok () written) :
    written.toList = [0, order.headerFlag, 0, 0] ++ image.bytes order 0 ∧
      written.cursor = headerSize + (image.bytes order 0).length ∧ written.origin = headerSize ∧
      (written.align 4).toList = written.toList ++ List.replicate (written.padding 4) 0 := by
  obtain ⟨hstart, hcursor, hlength, hroom⟩ := toList_start order capacity
  have horigin : (start order capacity).origin = headerSize := rfl
  obtain ⟨-, hstores⟩ := hlays (by omega) hok
  rw [horigin, hcursor, Nat.sub_self, show (start order capacity).order = order from rfl] at hstores
  have hlist := hstores.toList_eq (by omega) hroom
  have hpadded := (hstores.trans (Buffer.stores_align 4 written)).toList_eq (by omega) hroom
  have hwritten := hstores.cursor
  rw [hcursor] at hwritten
  refine ⟨by rw [hlist, hstart], hwritten, hstores.origin, ?_⟩
  rw [hpadded, hlist, List.append_assoc]

/-- What is written behind the header, padded at the end, is read from behind the header, up to
where the writer stood. -/
theorem decode_encode {c : Context} {layout : Layout} {order : ByteOrder} {capacity : Nat}
    {v x : Value} {image : Image} {bytes : List UInt8}
    (htrip : Coding.RoundTrips (c.write layout v) (c.read layout) image x)
    (hok : encode c layout order capacity v = .ok bytes) :
    decode c layout bytes = .ok x ∧
      ∃ written last, c.write layout v (start order capacity) = .ok () written ∧
        bytes = (written.align 4).toList ∧ c.read layout (opened order bytes) = .ok x last ∧
        last.cursor = written.cursor := by
  unfold encode at hok
  split at hok
  · rename_i written hwritten
    cases hok
    obtain ⟨-, hcursor, -, -⟩ := toList_start order capacity
    obtain ⟨hread, -⟩ := htrip (Nat.le_of_eq hcursor.symm) hwritten
    obtain ⟨hlist, hstood, -, hpadded⟩ := toList_written htrip hwritten
    rw [hlist, List.append_assoc] at hpadded
    have hopened := hread (b := opened order (written.align 4).toList) (Nat.le_refl _) (by
      rw [rest_opened, hpadded]
      exact List.prefix_append _ _)
    refine ⟨?_, written, _, hwritten, rfl, hopened, ?_⟩
    · rw [decode_of_headerOrder (by rw [hpadded]; exact headerOrder_append order _), hopened]
    · rw [Buffer.cursor_advance, hstood]
      rfl
  · cases hok

end Sample

namespace Registry

variable {r : Registry} {h : Handle}

/-- What is serialized is deserialized to its normal form, the reader stops where the writer stood
before the final padding, and an exact value comes back as it was. -/
theorem deserialize_serializeIn {config : Config} (hr : Reachable config r) {order : ByteOrder}
    {v : Value} {bytes : List UInt8} (hok : r.serializeIn h order v = .ok bytes) :
    r.deserialize h bytes = .ok (r.normal h v) ∧
      (∃ layout written last, r.sampleLayout h = .ok layout ∧
        r.context.write layout v (Sample.start order config.initialCapacity) = .ok () written ∧
        bytes = (written.align 4).toList ∧
        r.context.read layout (Sample.opened order bytes) = .ok (r.normal h v) last ∧
        last.cursor = written.cursor) ∧
      (r.Exact h v → r.normal h v = v) := by
  unfold serializeIn at hok
  obtain ⟨layout, hlayout, hencode⟩ := except_bind_eq_ok.mp hok
  obtain ⟨hdecode, written, last, hwrite, hbytes, hread, hcursor⟩ :=
    Sample.decode_encode (hr.sound.roundTrips_sampleLayout hlayout v) hencode
  refine ⟨?_, ⟨_, written, last, hlayout, ?_, hbytes, hread, hcursor⟩, hr.sound.normal_of_exact⟩
  · unfold deserialize
    rw [hlayout]
    exact hdecode
  · rwa [hr.config_eq] at hwrite

/-- A type that refers to itself. -/
def node : Declaration :=
  { name := "Node"
    body := .struct
      [⟨"value", .primitive (.integer .int32)⟩, ⟨"next", .optional (.named "Node")⟩] }

/-- A chain of two nodes, with numbers of other types and a member that is not declared. -/
def chain : Value :=
  .struct
    [("next", .struct
      [("next", .null), ("other", .null), ("value", .integer ⟨.int8, -2, by decide⟩)]),
      ("value", .integer ⟨.uint8, 7, by decide⟩)]

/-- The bytes of the chain give the chain with the declared numbers and members. -/
theorem deserialize_chain :
    let r := afterRegister node { config := { } }
    let bytes : List UInt8 :=
      [0, 0, 0, 0, 0, 0, 0, 7, 1, 0, 0, 0, 255, 255, 255, 254, 0, 0, 0, 0]
    r.serializeIn ⟨0, "Node"⟩ .big chain = .ok bytes ∧
      r.deserialize ⟨0, "Node"⟩ bytes = .ok (.struct
        [("next", .struct [("next", .null), ("value", .integer ⟨.int32, -2, by decide⟩)]),
          ("value", .integer ⟨.int32, 7, by decide⟩)]) :=
  have hok : (afterRegister node { config := { } }).serializeIn ⟨0, "Node"⟩ .big chain =
      .ok [0, 0, 0, 0, 0, 0, 0, 7, 1, 0, 0, 0, 255, 255, 255, 254, 0, 0, 0, 0] := by decide
  ⟨hok, (deserialize_serializeIn (Reachable.new.register node) hok).1⟩

end Registry

end Cdr
