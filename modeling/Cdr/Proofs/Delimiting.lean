import Cdr.Proofs.Keys
import Cdr.Proofs.Readers
import Cdr.Proofs.Samples

/-! Where a value ends.  What a reader takes decides by itself what is read and where it ends: with
other bytes behind it the reader gives the same value, and where the bytes end inside of it the
reader finds them too short. -/

namespace Cdr

/-- The second buffer has room for what counts, stands at the place of the first, and reads numbers
in the same order. -/
structure Buffer.Alike (b c : Buffer) : Prop where
  cursor : c.cursor = b.cursor
  origin : c.origin = b.origin
  order : c.order = b.order
  room : c.length ≤ c.capacity

namespace Buffer

theorem Alike.advance {b c : Buffer} (h : b.Alike c) (n : Nat) :
    (b.advance n).Alike (c.advance n) where
  cursor := by simp [h.cursor]
  origin := h.origin
  order := h.order
  room := h.room

theorem Alike.padding_eq {b c : Buffer} (h : b.Alike c) (size : Nat) :
    c.padding size = b.padding size := by
  rw [padding_eq_gap, padding_eq_gap, h.cursor, h.origin]

theorem remaining_eq {b : Buffer} (hroom : b.length ≤ b.capacity) :
    b.remaining = b.rest.length := by
  rw [length_rest, Nat.min_eq_left hroom, remaining]

theorem rest_advance_of_append {b : Buffer} {xs ys : List UInt8} (h : b.rest = xs ++ ys) :
    (b.advance xs.length).rest = ys := by
  rw [rest_advance, h, List.drop_left]

end Buffer

namespace Coding

/-- The step finds that the bytes end too early. -/
def TooShort {α : Type} (step : Coding α) (b : Buffer) : Prop :=
  ∃ requested available position b',
    step b = .error (Cause.tooShort requested available position).fault b'

/-- Wherever the step finds these bytes it gives `x` and takes just them, and where it finds only
the first of them it finds too few. -/
structure Takes {α : Type} (step : Coding α) (b : Buffer) (taken : List UInt8) (x : α) : Prop where
  gives : ∀ ⦃c : Buffer⦄, b.Alike c → ∀ ⦃behind : List UInt8⦄, c.rest = taken ++ behind →
    step c = .ok x (c.advance taken.length)
  short : ∀ ⦃c : Buffer⦄, b.Alike c → ∀ ⦃missing : List UInt8⦄, missing ≠ [] →
    taken = c.rest ++ missing → step.TooShort c

/-- What the step takes decides what it gives and where it ends. -/
def Delimited {α : Type} (step : Coding α) : Prop :=
  ∀ ⦃b b' : Buffer⦄ ⦃x : α⦄, b.length ≤ b.capacity → step b = .ok x b' →
    ∃ taken behind, b.rest = taken ++ behind ∧ b' = b.advance taken.length ∧ step.Takes b taken x

theorem take_of_short {b : Buffer} {count : Nat} (hroom : b.length ≤ b.capacity)
    (hshort : b.rest.length < count) :
    take count b = .error (Cause.tooShort count b.remaining b.cursor).fault b := by
  rw [← Buffer.remaining_eq hroom] at hshort
  exact if_pos hshort

variable {α β : Type} {step : Coding α} {rest : α → Coding β}

theorem TooShort.bind {b : Buffer} (h : step.TooShort b) : (step >>= rest).TooShort b := by
  obtain ⟨requested, available, position, b', hstep⟩ := h
  exact ⟨requested, available, position, b', by rw [bind_apply, hstep]⟩

theorem TooShort.bind_of_eq_ok {b c : Buffer} {x : α} (hstep : step b = .ok x c)
    (h : (rest x).TooShort c) : (step >>= rest).TooShort b := by
  obtain ⟨requested, available, position, b', hrest⟩ := h
  exact ⟨requested, available, position, b', by rw [bind_apply, hstep]; exact hrest⟩

protected theorem Takes.pure (b : Buffer) (x : α) : Takes (pure x) b [] x where
  gives _ _ _ _ := rfl
  short _ _ _ hmissing htaken := absurd (List.append_eq_nil_iff.mp htaken.symm).2 hmissing

protected theorem Takes.take (b : Buffer) (bytes : List UInt8) :
    Takes (take bytes.length) b bytes bytes where
  gives _ _ behind hbehind := take_of_prefix ⟨behind, hbehind.symm⟩
  short c hc missing hmissing htaken := by
    refine ⟨_, _, _, _, take_of_short hc.room ?_⟩
    have hpos := List.length_pos_iff.mpr hmissing
    rw [htaken, List.length_append]
    omega

/-- The bytes end inside of what the first step takes, or it has all of that and they end inside of
what the second takes. -/
protected theorem Takes.bind {b : Buffer} {x : α} {y : β} {xs ys : List UInt8}
    (h : step.Takes b xs x) (hrest : (rest x).Takes (b.advance xs.length) ys y) :
    (step >>= rest).Takes b (xs ++ ys) y where
  gives c hc behind hbehind := by
    rw [List.append_assoc] at hbehind
    have hnext := hrest.gives (hc.advance _) (Buffer.rest_advance_of_append hbehind)
    rw [bind_apply, h.gives hc hbehind]
    simpa using hnext
  short c hc missing hmissing htaken := by
    have hsecond : ∀ zs, c.rest = xs ++ zs → ys = zs ++ missing → (step >>= rest).TooShort c := by
      intro zs hzs hys
      refine TooShort.bind_of_eq_ok (h.gives hc hzs) (hrest.short (hc.advance _) hmissing ?_)
      rw [Buffer.rest_advance_of_append hzs, hys]
    rcases List.append_eq_append_iff.mp htaken with ⟨zs, hzs, hys⟩ | ⟨zs, hzs, hys⟩
    · exact hsecond zs hzs hys
    · by_cases hnil : zs = []
      · subst hnil
        exact hsecond [] (by simpa using hzs.symm) (by simpa using hys.symm)
      · exact (h.short hc hnil hzs).bind

namespace Delimited

protected theorem pure (x : α) : Delimited (pure x) := by
  rintro b _ _ - ⟨⟩
  exact ⟨[], b.rest, rfl, rfl, Takes.pure b x⟩

protected theorem fail {cause : Cause} : Delimited (Coding.fail cause : Coding α) :=
  fun _ _ _ _ hok => nomatch hok

protected theorem bind (h : Delimited step) (hrest : ∀ x, Delimited (rest x)) :
    Delimited (step >>= rest) := by
  intro b b' y hroom hok
  obtain ⟨x, c, hstep, hnext⟩ := bind_eq_ok.mp hok
  obtain ⟨xs, mid, hxs, rfl, htakes⟩ := h hroom hstep
  have hroom' : (b.advance xs.length).length ≤ (b.advance xs.length).capacity := hroom
  obtain ⟨ys, behind, hys, rfl, htakes'⟩ := hrest x hroom' hnext
  rw [Buffer.rest_advance_of_append hxs] at hys
  refine ⟨xs ++ ys, behind, ?_, ?_, htakes.bind htakes'⟩
  · rw [hxs, hys, List.append_assoc]
  · rw [Buffer.advance_advance, List.length_append]

/-- A step may look at the place and at the byte order of the buffer, which are the same in buffers
that are alike. -/
theorem get_bind {rest : Buffer → Coding α}
    (hsame : ∀ {b c : Buffer}, b.Alike c → rest c = rest b)
    (h : ∀ b, Delimited (rest b)) : Delimited (get >>= rest) := by
  intro b b' x hroom hok
  obtain ⟨taken, behind, hrest, hb', htakes⟩ := h b hroom hok
  refine ⟨taken, behind, hrest, hb', ⟨fun c hc _ hbehind => ?_, fun c hc _ hmissing htaken => ?_⟩⟩
  · show rest c c = _
    rw [hsame hc]
    exact htakes.gives hc hbehind
  · obtain ⟨requested, available, position, c', hshort⟩ := htakes.short hc hmissing htaken
    refine ⟨requested, available, position, c', ?_⟩
    show rest c c = _
    rw [hsame hc]
    exact hshort

theorem take (count : Nat) : Delimited (Coding.take count) := by
  intro b b' bytes hroom hok
  have henough : count ≤ b.rest.length := by
    apply Nat.le_of_not_lt
    intro hshort
    rw [take_of_short hroom hshort] at hok
    cases hok
  have hlength : (b.rest.take count).length = count := List.length_take_of_le henough
  have htake := take_of_prefix (List.take_prefix count b.rest)
  have htakes := Takes.take b (b.rest.take count)
  rw [hlength] at htake htakes
  cases hok.symm.trans htake
  refine ⟨b.rest.take count, b.rest.drop count, (List.take_append_drop _ _).symm, ?_, htakes⟩
  rw [hlength]

theorem compositional : Compositional Delimited :=
  compositional_of_get_bind (fun h size _ => h.padding_eq size) Buffer.Alike.order Delimited.pure
    Delimited.bind (fun _ _ => Delimited.fail) take get_bind

/-- The number of bytes that the step takes: so many bytes decide what it gives, and fewer are too
few. -/
theorem exists_count (h : Delimited step) {b b' : Buffer} {x : α} (hroom : b.length ≤ b.capacity)
    (hok : step b = .ok x b') :
    ∃ n, n ≤ b.rest.length ∧ b'.cursor = b.cursor + n ∧ ∀ c, b.Alike c →
      (n ≤ c.rest.length → c.rest.take n = b.rest.take n → ∃ c', step c = .ok x c') ∧
        ∀ m < n, c.rest = b.rest.take m → step.TooShort c := by
  obtain ⟨taken, behind, hrest, rfl, htakes⟩ := h hroom hok
  refine ⟨taken.length, by simp [hrest], rfl, fun c hc => ⟨fun _ hsame => ?_, fun m hm hcut => ?_⟩⟩
  · rw [hrest, List.take_left] at hsame
    have happend := (List.take_append_drop taken.length c.rest).symm
    rw [hsame] at happend
    exact ⟨_, htakes.gives hc happend⟩
  · rw [hrest, List.take_append_of_le_length (Nat.le_of_lt hm)] at hcut
    have hmissing : taken.drop m ≠ [] := by
      rw [Ne, List.drop_eq_nil_iff]
      omega
    refine htakes.short hc hmissing ?_
    rw [hcut, List.take_append_drop]

end Delimited

end Coding

/-- The first `n` of the bytes decide that they are decoded as `v`: so are all bytes that start with
them, and fewer of them are too short. -/
structure Delimits (decode : List UInt8 → Except Fault Value) (bytes : List UInt8) (v : Value)
    (n : Nat) : Prop where
  le : n ≤ bytes.length
  same : ∀ other : List UInt8, n ≤ other.length → other.take n = bytes.take n →
    decode other = .ok v
  short : ∀ m < n, ∃ requested available position,
    decode (bytes.take m) = .error (Cause.tooShort requested available position).fault

/-- There is one such number only. -/
theorem Delimits.unique {decode : List UInt8 → Except Fault Value} {bytes : List UInt8}
    {v v' : Value} {m n : Nat} (h : Delimits decode bytes v m) (h' : Delimits decode bytes v' n) :
    m = n := by
  have hle : ∀ {v v' : Value} {m n : Nat}, Delimits decode bytes v m →
      Delimits decode bytes v' n → n ≤ m := by
    intro v v' m n h h'
    apply Nat.le_of_not_lt
    intro hlt
    have hok := h.same (bytes.take m) (by rw [List.length_take_of_le h.le])
      (by rw [List.take_take, Nat.min_self])
    obtain ⟨_, _, _, hshort⟩ := h'.short m hlt
    rw [hok] at hshort
    cases hshort
  exact Nat.le_antisymm (hle h' h) (hle h h')

namespace Sample

theorem alike_opened (order : ByteOrder) (bytes other : List UInt8) :
    (opened order bytes).Alike (opened order other) :=
  ⟨rfl, rfl, rfl, room_opened order other⟩

variable {c : Context} {layout : Layout} {bytes : List UInt8} {v : Value}

theorem delimits_decode (h : Coding.Delimited (c.read layout)) {order : ByteOrder} {last : Buffer}
    (horder : headerOrder bytes = .ok order)
    (hread : c.read layout (opened order bytes) = .ok v last) :
    Delimits (decode c layout) bytes v last.cursor := by
  obtain ⟨n, hn, hcursor, hcount⟩ := h.exists_count (room_opened order bytes) hread
  have hheader := headerSize_le_of_headerOrder horder
  have hlast : last.cursor = headerSize + n := hcursor
  rw [rest_opened, List.length_drop] at hn
  rw [hlast]
  refine ⟨by omega, fun other hother hsame => ?_, fun m hm => ?_⟩
  · have hhead : other.take headerSize = bytes.take headerSize := by
      have htake := congrArg (List.take headerSize) hsame
      rwa [List.take_take, List.take_take, Nat.min_eq_left (Nat.le_add_right _ _)] at htake
    have horder' : headerOrder other = .ok order := by
      rw [← headerOrder_take (by omega), hhead, headerOrder_take hheader, horder]
    have hbody := congrArg (List.drop headerSize) hsame
    rw [List.drop_take, List.drop_take, Nat.add_sub_cancel_left] at hbody
    obtain ⟨c', hok⟩ := (hcount _ (alike_opened order bytes other)).1
      (by rw [rest_opened, List.length_drop]; omega) (by rwa [rest_opened, rest_opened])
    exact decode_eq_ok.mpr ⟨order, c', horder', hok⟩
  · by_cases hcut : m < headerSize
    · have hlength : (bytes.take m).length < headerSize := by
        rw [List.length_take]
        omega
      refine ⟨headerSize, (bytes.take m).length, 0, ?_⟩
      rw [decode, headerOrder_of_short hlength]
      rfl
    · have horder' : headerOrder (bytes.take m) = .ok order := by
        rw [← headerOrder_take (by rw [List.length_take]; omega), List.take_take,
          Nat.min_eq_left (by omega), headerOrder_take hheader, horder]
      obtain ⟨requested, available, position, b', hshort⟩ :=
        (hcount _ (alike_opened order bytes (bytes.take m))).2 (m - headerSize) (by omega)
          (by rw [rest_opened, rest_opened, List.drop_take])
      refine ⟨requested, available, position, ?_⟩
      rw [decode_of_headerOrder horder', hshort]

end Sample

namespace Key

variable {c : Context} {layout : Layout} {bytes : List UInt8} {v : Value}

theorem delimits_decode (h : Coding.Delimited (c.read layout)) {last : Buffer}
    (hread : c.read layout (opened bytes) = .ok v last) :
    Delimits (decode c layout) bytes v last.cursor := by
  obtain ⟨n, hn, hcursor, hcount⟩ := h.exists_count (room_opened bytes) hread
  have hlast : last.cursor = n := hcursor.trans (Nat.zero_add n)
  have halike : ∀ other, (opened bytes).Alike (opened other) :=
    fun other => ⟨rfl, rfl, rfl, room_opened other⟩
  rw [rest_opened] at hn
  rw [hlast]
  refine ⟨hn, fun other hother hsame => ?_, fun m hm => ?_⟩
  · exact decode_eq_ok.mpr ((hcount _ (halike other)).1 (by rwa [rest_opened])
      (by rwa [rest_opened, rest_opened]))
  · obtain ⟨requested, available, position, b', hshort⟩ :=
      (hcount _ (halike (bytes.take m))).2 m hm (by rw [rest_opened, rest_opened])
    refine ⟨requested, available, position, ?_⟩
    unfold opened at hshort
    rw [decode, hshort]

end Key

namespace Registry

variable {r : Registry} {h : Handle} {bytes : List UInt8} {v : Value}

theorem Steady.delimits_deserialize (hr : r.Steady) (hok : r.deserialize h bytes = .ok v) :
    ∃ layout order last, r.sampleLayout h = .ok layout ∧
      Sample.headerOrder bytes = .ok order ∧
      r.context.read layout (Sample.opened order bytes) = .ok v last ∧
      Delimits (r.deserialize h) bytes v last.cursor := by
  obtain ⟨layout, hl, hdecode⟩ := except_bind_eq_ok.mp hok
  obtain ⟨order, last, horder, hread⟩ := Sample.decode_eq_ok.mp hdecode
  have hdelimited := hr.compositional_sampleLayout Coding.Delimited.compositional hl
  rw [deserialize_of_sampleLayout hl]
  exact ⟨layout, order, last, hl, horder, hread,
    Sample.delimits_decode hdelimited horder hread⟩

theorem Steady.delimits_deserializeKey (hr : r.Steady) (hok : r.deserializeKey h bytes = .ok v) :
    ∃ layout last, r.keyLayout h = .ok layout ∧
      r.context.read layout (Key.opened bytes) = .ok v last ∧
      Delimits (r.deserializeKey h) bytes v last.cursor := by
  obtain ⟨layout, hl, hdecode⟩ := except_bind_eq_ok.mp hok
  obtain ⟨last, hread⟩ := Key.decode_eq_ok.mp hdecode
  have hdelimited := hr.compositional_keyLayout Coding.Delimited.compositional hl
  rw [deserializeKey_of_keyLayout hl]
  exact ⟨layout, last, hl, hread, Key.delimits_decode hdelimited hread⟩

/-- The reader of a sample stops where its writer stood before the final alignment. -/
theorem Sound.cursor_of_serializeIn (hr : r.Sound) {layout : Layout} {order order' : ByteOrder}
    {last : Buffer} {w : Value} (hl : r.sampleLayout h = .ok layout)
    (horder : Sample.headerOrder bytes = .ok order)
    (hread : r.context.read layout (Sample.opened order bytes) = .ok v last)
    (hok : r.serializeIn h order' w = .ok bytes) :
    ∃ written,
      r.context.write layout w (Sample.start order' r.config.initialCapacity) = .ok () written ∧
      bytes = written.toList ++ List.replicate (written.padding 4) 0 ∧
      last.cursor = written.toList.length := by
  obtain ⟨layout', hl', hencode⟩ := except_bind_eq_ok.mp hok
  obtain rfl : layout = layout' := Except.ok.inj (hl.symm.trans hl')
  have htrip := hr.roundTrips_sampleLayout hl w
  obtain ⟨-, written, last', hwrite, hbytes, hread', hcursor⟩ :=
    Sample.decode_encode htrip hencode
  obtain ⟨hlist, hstood, -, haligned⟩ := Sample.toList_written htrip hwrite
  rw [haligned] at hbytes
  rw [hbytes, hlist, List.append_assoc, Sample.headerOrder_append] at horder
  cases horder
  cases hread.symm.trans hread'
  refine ⟨written, hwrite, hbytes, ?_⟩
  rw [hcursor, hstood, hlist, List.length_append]
  rfl

/-- The reader of a key stops behind it. -/
theorem Sound.cursor_of_unpaddedKey (hr : r.Sound) {layout : Layout} {last : Buffer} {w : Value}
    {u : List UInt8} (hl : r.keyLayout h = .ok layout)
    (hread : r.context.read layout (Key.opened bytes) = .ok v last)
    (hu : r.unpaddedKey h w = .ok u) (hpre : u <+: bytes) : last.cursor = u.length := by
  obtain ⟨layout', b', hl', hencode⟩ := unpaddedKey_eq_ok hu
  obtain rfl : layout = layout' := Except.ok.inj (hl.symm.trans hl')
  have hstop := Key.read_encode (hr.roundTrips_keyLayout hl w) hencode hpre
  cases hread.symm.trans hstop
  exact Nat.zero_add u.length

/-- Of the bytes that are deserialized, as a sample or as a key, some first ones decide the value,
and fewer of them are too short.  Of a sample that was serialized these are what was written before
the final alignment, and of a key they are the key without its padding. -/
theorem deserialize_delimits (config : Config) (events : List Event) (h : Handle) :
    let r := after { config := config } events
    (∀ bytes v, r.deserialize h bytes = .ok v → ∃ n, Delimits (r.deserialize h) bytes v n ∧
      ∀ order w, r.serializeIn h order w = .ok bytes → ∃ layout written,
        r.sampleLayout h = .ok layout ∧
        r.context.write layout w (Sample.start order config.initialCapacity) = .ok () written ∧
        bytes = written.toList ++ List.replicate (written.padding 4) 0 ∧
        n = written.toList.length) ∧
    ∀ bytes v, r.deserializeKey h bytes = .ok v → ∃ n, Delimits (r.deserializeKey h) bytes v n ∧
      (∀ w u, r.unpaddedKey h w = .ok u → u <+: bytes → n = u.length) ∧
      ∀ w, r.key h w = .ok bytes → ∃ u, r.unpaddedKey h w = .ok u ∧ bytes = padKey u ∧
        n = u.length := by
  intro r
  have hr : r.Steady := steady_after config events
  refine ⟨fun bytes v hok => ?_, fun bytes v hok => ?_⟩
  · obtain ⟨layout, order, last, hl, horder, hread, hdelimits⟩ := hr.delimits_deserialize hok
    refine ⟨last.cursor, hdelimits, fun order' w hserialized => ?_⟩
    obtain ⟨written, hwrite, hbytes, hcursor⟩ :=
      hr.sound.cursor_of_serializeIn hl horder hread hserialized
    rw [config_after] at hwrite
    exact ⟨layout, written, hl, hwrite, hbytes, hcursor⟩
  · obtain ⟨layout, last, hl, hread, hdelimits⟩ := hr.delimits_deserializeKey hok
    have hstop : ∀ w u, r.unpaddedKey h w = .ok u → u <+: bytes → last.cursor = u.length :=
      fun w u hu hpre => hr.sound.cursor_of_unpaddedKey hl hread hu hpre
    refine ⟨last.cursor, hdelimits, hstop, fun w hkey => ?_⟩
    obtain ⟨u, hu, hpad⟩ := key_eq_ok hkey
    exact ⟨u, hu, hpad, hstop w u hu (hpad ▸ List.prefix_append _ _)⟩

/-- A type whose samples end inside of a word, with its last member as the key. -/
def gauge : Declaration :=
  { name := "Gauge"
    keyMembers := some ["unit"]
    body := .struct [⟨"level", .primitive .float32⟩, ⟨"unit", .primitive .char⟩] }

/-- What a gauge measures. -/
def measured : Value := .struct [("level", .float32 0x40490FDB), ("unit", .char 'm')]

/-- The value is read from the first nine bytes of its sample, before the final alignment, and its
key from the first byte, before the padding. -/
theorem deserialize_delimits_gauge :
    let r := after { } [.register gauge]
    let sample : List UInt8 := [0, 1, 0, 0, 0xDB, 0x0F, 0x49, 0x40, 109, 0, 0, 0]
    let key : List UInt8 := 109 :: List.replicate 15 0
    r.serializeIn ⟨0, "Gauge"⟩ .little measured = .ok sample ∧
      Delimits (r.deserialize ⟨0, "Gauge"⟩) sample measured 9 ∧
      r.key ⟨0, "Gauge"⟩ measured = .ok key ∧
      Delimits (r.deserializeKey ⟨0, "Gauge"⟩) key (.struct [("unit", .char 'm')]) 1 := by
  obtain ⟨hsamples, hkeys⟩ := deserialize_delimits { } [.register gauge] ⟨0, "Gauge"⟩
  obtain ⟨n, hdelimits, hend⟩ := hsamples [0, 1, 0, 0, 0xDB, 0x0F, 0x49, 0x40, 109, 0, 0, 0]
    measured (by rfl)
  obtain ⟨m, hdelimits', hend', -⟩ := hkeys (109 :: List.replicate 15 0)
    (.struct [("unit", .char 'm')]) (by rfl)
  intro r sample key
  have hserialized : r.serializeIn ⟨0, "Gauge"⟩ .little measured = .ok sample := by decide
  have hkey : r.key ⟨0, "Gauge"⟩ measured = .ok key := by decide
  have hunpadded : r.unpaddedKey ⟨0, "Gauge"⟩ measured = .ok [109] := by decide
  obtain ⟨layout, written, hl, hwrite, -, hn⟩ := hend .little measured hserialized
  obtain rfl : m = 1 := hend' measured [109] hunpadded ⟨List.replicate 15 0, rfl⟩
  cases hl
  cases hwrite
  obtain rfl : n = 9 := hn.trans (by decide)
  exact ⟨hserialized, hdelimits, hkey, hdelimits'⟩

end Registry

end Cdr
