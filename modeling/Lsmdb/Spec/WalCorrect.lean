import Lsmdb.Native.Wal

/-!
# Write-ahead log correctness

`walReplay` inverts the framing of `AddRecord`, frame by frame:

* `replayStep_walFrame`: a whole frame is decoded to its record,
* `replayStep_sound`: whatever is decoded was the frame of the record,
* `replayStep_torn`: a strict prefix of a frame stops the replay.

From these, `walReplay_eq_of_stop` splits every log into the frames that are
replayed and a tail at which the replay stops.
-/

namespace Lsmdb

/-- The payload of the record fits the `u32` length field of its frame. -/
def Entry.WalFits (e : Entry) : Prop := 9 + e.key.length + e.value.length < 2 ^ 32

instance (e : Entry) : Decidable e.WalFits := inferInstanceAs (Decidable (_ < _))

@[simp] theorem length_walPayload (e : Entry) :
    (walPayload e).length = 9 + e.key.length + e.value.length := by
  simp [walPayload]
  omega

@[simp] theorem length_walFrame (e : Entry) :
    (walFrame e).length = 17 + e.key.length + e.value.length := by
  simp [walFrame]
  omega

@[simp] theorem walFrames_nil : walFrames [] = [] := rfl

@[simp] theorem walFrames_cons (e : Entry) (es : List Entry) :
    walFrames (e :: es) = walFrame e ++ walFrames es := rfl

@[simp] theorem walFrames_append (es fs : List Entry) :
    walFrames (es ++ fs) = walFrames es ++ walFrames fs := by
  simp [walFrames]

/-! ## One iteration of the replay loop -/

/-- A whole frame is decoded to the record it was built from. -/
theorem replayStep_walFrame {e : Entry} (he : e.WalFits) (rest : Bytes) :
    replayStep (walFrame e ++ rest) = some (.record e rest) := by
  unfold Entry.WalFits at he
  have hk : e.key.length.toUInt32.toNat = e.key.length := toNat_toUInt32_of_lt (by omega)
  have hv : e.value.length.toUInt32.toNat = e.value.length := toNat_toUInt32_of_lt (by omega)
  have hp : (walPayload e).length.toUInt32.toNat = 9 + e.key.length + e.value.length := by
    rw [length_walPayload, toNat_toUInt32_of_lt he]
  -- the header
  have hlong : kHeaderSize ≤ (walFrame e ++ rest).length := by
    simp only [List.length_append, length_walFrame, kHeaderSize]
    omega
  have hcrc : decodeFixed32 (walFrame e ++ rest) = some (crc32 (walPayload e)) := by
    simp only [walFrame, List.append_assoc, decodeFixed32_putFixed32]
  have hlen : decodeFixed32 ((walFrame e ++ rest).drop 4) =
      some (walPayload e).length.toUInt32 := by
    simp only [walFrame, List.append_assoc]
    rw [List.drop_left' (length_putFixed32 _), decodeFixed32_putFixed32]
  have hfits : ¬ kHeaderSize + (9 + e.key.length + e.value.length) >
      (walFrame e ++ rest).length := by
    simp only [List.length_append, length_walFrame, kHeaderSize]
    omega
  have hmin : ¬ (walPayload e).length.toUInt32 < 1 + 4 := by
    rw [UInt32.lt_iff_toNat_lt, hp]
    simp
    omega
  -- the pointers into the payload
  have hpay : (walFrame e ++ rest).drop kHeaderSize = walPayload e ++ rest := by
    rw [walFrame, List.append_assoc, List.drop_left' (by simp [kHeaderSize])]
  have hdrop : (walFrame e ++ rest).drop (kHeaderSize + (9 + e.key.length + e.value.length)) =
      rest := List.drop_left' (by rw [length_walFrame, kHeaderSize]; omega)
  have hq1 : (walPayload e ++ rest).drop 1 = putFixed32 e.key.length.toUInt32 ++
      (e.key ++ (putFixed32 e.value.length.toUInt32 ++ (e.value ++ rest))) := by
    simp [walPayload]
  have htype : (walPayload e ++ rest)[0]? = some e.type.raw := by simp [walPayload]
  simp only [replayStep, hcrc, hlen, hpay, hp, hk, hv, htype, hdrop, hq1, if_neg hfits,
    if_neg hmin, bind, Option.bind, loadBytes_append (length_walPayload e),
    decodeFixed32_putFixed32, List.drop_left' (length_putFixed32 _), loadBytes_append,
    List.drop_left, hlong, not_true, if_false, ne_eq]
  rw [if_neg (by omega), if_neg (by omega)]
  rfl

/-- A decoded record was framed exactly as `AddRecord` frames it. -/
private theorem replayStep_sound {p rest : Bytes} {e : Entry}
    (h : replayStep p = some (.record e rest)) : e.WalFits ∧ p = walFrame e ++ rest := by
  simp only [replayStep, bind, Option.bind_eq_some_iff, Option.pure_def, ite_eq_iff,
    Option.some.injEq, reduceCtorEq, and_false, false_or, ReplayStep.record.injEq,
    not_not] at h
  obtain ⟨hhead, crc, hcrc, len, hlen, hfit, payload, hload, hsum, -, type, htype, klen, hklen,
    -, key, hkey, vlen, hvlen, htotal, value, hval, rfl, rfl⟩ := h
  -- cut the buffer at the header, then the payload at its fields
  have h0 : p.drop kHeaderSize = type :: (p.drop kHeaderSize).drop 1 := by
    cases hp : p.drop kHeaderSize with
    | nil => simp [hp] at htype
    | cons b bs => simp [hp] at htype; simp [htype]
  -- the fields are those of a frame because encoding is the inverse of decoding
  have h1 := eq_putFixed32_of_decodeFixed32 hklen
  obtain ⟨h2, hkl⟩ := eq_append_of_loadBytes hkey
  have h3 := eq_putFixed32_of_decodeFixed32 hvlen
  obtain ⟨h4, hvl⟩ := eq_append_of_loadBytes hval
  have hlt : len.toNat < 2 ^ 32 := len.toBitVec.isLt
  have hk : klen = key.length.toUInt32 := by
    rw [← UInt32.toNat_inj, toNat_toUInt32_of_lt (by omega), hkl]
  have hv : vlen = value.length.toUInt32 := by
    rw [← UInt32.toNat_inj, toNat_toUInt32_of_lt (by omega), hvl]
  have hbody : p.drop kHeaderSize = walPayload ⟨key, value, ⟨type⟩⟩ ++
      (p.drop kHeaderSize).drop (1 + 4 + klen.toNat + 4 + vlen.toNat) := by
    simp only [List.drop_drop] at h1 h2 h3 h4 ⊢
    conv_lhs => rw [h0, List.drop_drop, h1, h2, h3, h4]
    simp only [walPayload, ← hk, ← hv, List.cons_append, List.append_assoc, List.nil_append]
    rw [show kHeaderSize + 1 + 4 + klen.toNat + 4 + vlen.toNat =
      kHeaderSize + (1 + 4 + klen.toNat + 4 + vlen.toNat) by omega]
  have hpayload : payload = walPayload ⟨key, value, ⟨type⟩⟩ := by
    have hlenp : (walPayload ⟨key, value, ⟨type⟩⟩).length = len.toNat := by
      rw [length_walPayload]
      dsimp only
      omega
    rw [hbody, loadBytes_append hlenp] at hload
    exact (Option.some.inj hload).symm
  refine ⟨by unfold Entry.WalFits; dsimp only; omega, ?_⟩
  have hh1 := eq_putFixed32_of_decodeFixed32 hcrc
  have hh2 := eq_putFixed32_of_decodeFixed32 hlen
  have hl : len = (walPayload ⟨key, value, ⟨type⟩⟩).length.toUInt32 := by
    rw [← UInt32.toNat_inj, toNat_toUInt32_of_lt] <;> rw [length_walPayload] <;> dsimp only <;>
      omega
  rw [htotal, List.drop_drop] at hbody
  rw [List.drop_drop] at hh2
  conv_lhs => rw [hh1, hh2, show 4 + 4 = kHeaderSize from rfl, hbody]
  rw [walFrame, ← hl, ← hpayload, hsum]
  simp only [List.append_assoc]

/-- The replay never reads outside of the log. -/
private theorem replayStep_isSome (p : Bytes) : ∃ r, replayStep p = some r := by
  unfold replayStep
  -- every check of the source bounds the load behind it
  split
  · exact ⟨_, rfl⟩
  · rename_i hhead
    simp only [kHeaderSize, not_not] at *
    obtain ⟨crc, hcrc⟩ := decodeFixed32_isSome (p := p) (by omega)
    obtain ⟨len, hlen⟩ := decodeFixed32_isSome (p := p.drop 4) (by simp; omega)
    simp only [hcrc, hlen, bind, Option.bind]
    split
    · exact ⟨_, rfl⟩
    · rename_i hfit
      rw [loadBytes, if_pos (by simp; omega)]
      dsimp only
      split
      · exact ⟨_, rfl⟩
      · split
        · exact ⟨_, rfl⟩
        · -- the payload has at least a type and a key length
          rename_i hmin
          rw [UInt32.lt_iff_toNat_lt, show (1 + 4 : UInt32).toNat = 5 from rfl] at hmin
          obtain ⟨type, htype⟩ : ∃ type, (p.drop (4 + 4))[0]? = some type :=
            ⟨_, List.getElem?_eq_getElem (by simp; omega)⟩
          obtain ⟨klen, hklen⟩ := decodeFixed32_isSome (p := (p.drop (4 + 4)).drop 1)
            (by simp; omega)
          simp only [htype, hklen]
          split
          · exact ⟨_, rfl⟩
          · rw [loadBytes, if_pos (by simp; omega)]
            dsimp only
            obtain ⟨vlen, hvlen⟩ := decodeFixed32_isSome
              (p := (((p.drop (4 + 4)).drop 1).drop 4).drop klen.toNat) (by simp; omega)
            simp only [hvlen]
            split
            · exact ⟨_, rfl⟩
            · rw [loadBytes, if_pos (by simp; omega)]
              exact ⟨_, rfl⟩

/-- A strict prefix of a frame stops the replay, wherever it was cut. -/
theorem replayStep_torn {e : Entry} {t : Bytes} (he : e.WalFits) (ht : t <+: walFrame e)
    (hne : t ≠ walFrame e) : replayStep t = some .stop := by
  unfold Entry.WalFits at he
  have hshort : t.length < 17 + e.key.length + e.value.length := by
    have hle := ht.length_le
    rw [length_walFrame] at hle
    refine lt_of_le_of_ne hle fun heq => hne (ht.eq_of_length ?_)
    rw [heq, length_walFrame]
  by_cases hhead : kHeaderSize ≤ t.length
  · -- the header is whole, so the length it announces is that of the whole frame
    obtain ⟨suffix, hs⟩ := ht
    have htake : t = putFixed32 (crc32 (walPayload e)) ++
        (putFixed32 (walPayload e).length.toUInt32 ++ t.drop 8) := by
      have h8 : t.take 8 = (walFrame e).take 8 := by
        rw [← hs, List.take_append_of_le_length (show 8 ≤ t.length from hhead)]
      rw [walFrame, List.take_left' (by simp)] at h8
      conv_lhs => rw [← List.take_append_drop 8 t, h8]
      simp
    have hp : (walPayload e).length.toUInt32.toNat = 9 + e.key.length + e.value.length := by
      rw [length_walPayload, toNat_toUInt32_of_lt he]
    have hcrc : decodeFixed32 t = some (crc32 (walPayload e)) := by
      rw [htake, decodeFixed32_putFixed32]
    have hlen : decodeFixed32 (t.drop 4) = some (walPayload e).length.toUInt32 := by
      rw [htake, List.drop_left' (length_putFixed32 _), decodeFixed32_putFixed32]
    simp only [replayStep, hhead, hcrc, hlen, hp, bind, Option.bind, not_true, if_false]
    rw [if_pos (by simp only [kHeaderSize]; omega)]
    rfl
  · simp only [replayStep, if_pos hhead]
    rfl

/-! ## The replay loop -/

/-- The loop ends where a frame cannot be read. -/
private theorem walReplayLoop_stop {p : Bytes} (count : Nat) (h : replayStep p = some .stop) :
    walReplayLoop p count = some ([], count) := by
  rw [walReplayLoop]
  split <;> simp_all

/-- The loop goes on behind a record. -/
private theorem walReplayLoop_record {p rest : Bytes} {e : Entry} (count : Nat)
    (h : replayStep p = some (.record e rest)) :
    walReplayLoop p count =
      (walReplayLoop rest (count + 1)).map fun r => (e :: r.1, r.2) := by
  rw [walReplayLoop]
  split
  · simp_all
  · simp_all
  · rename_i e' rest' h'
    rw [h] at h'
    cases h'
    cases walReplayLoop rest (count + 1) <;> rfl

/-- Whole frames at the front of a log are replayed first. -/
private theorem walReplayLoop_walFrames {es : List Entry} (hes : ∀ e ∈ es, e.WalFits) (p : Bytes)
    (count : Nat) :
    walReplayLoop (walFrames es ++ p) count =
      (walReplayLoop p (count + es.length)).map fun r => (es ++ r.1, r.2) := by
  induction es generalizing count with
  | nil => simp
  | cons e es ih =>
    have he := hes e List.mem_cons_self
    rw [walFrames_cons, List.append_assoc,
      walReplayLoop_record _ (replayStep_walFrame he _),
      ih (fun r hr => hes r (List.mem_cons_of_mem _ hr)), Option.map_map, List.length_cons,
      show count + 1 + es.length = count + (es.length + 1) by omega]
    rfl

/-- A log of whole frames followed by bytes at which the replay stops yields exactly the records
    of the frames. -/
theorem walReplay_eq_of_stop {es : List Entry} {t : Bytes} (hes : ∀ e ∈ es, e.WalFits)
    (ht : replayStep t = some .stop) : walReplay (walFrames es ++ t) = some (es, es.length) := by
  rw [walReplay, walReplayLoop_walFrames hes, walReplayLoop_stop _ ht]
  simp

/-- Every log is a sequence of frames followed by a tail at which the replay stops. -/
theorem exists_walFrames_append (buf : Bytes) :
    ∃ es t, (∀ e ∈ es, Entry.WalFits e) ∧ buf = walFrames es ++ t ∧
      replayStep t = some .stop := by
  -- induction on the length of the buffer
  induction h : buf.length using Nat.strong_induction_on generalizing buf with
  | _ n ih =>
    obtain ⟨r, hr⟩ := replayStep_isSome buf
    cases r with
    | stop => exact ⟨[], buf, by simp, rfl, hr⟩
    | record e rest =>
      obtain ⟨he, rfl⟩ := replayStep_sound hr
      obtain ⟨es, t, hes, hrest, ht⟩ := ih _ (h ▸ replayStep_length_lt hr) rest rfl
      refine ⟨e :: es, t, ?_, by rw [hrest]; simp, ht⟩
      intro x hx
      rcases List.mem_cons.mp hx with rfl | hx
      · exact he
      · exact hes x hx

/-- The replay of a log followed by the strict prefix of one more frame yields exactly the logged
    records, in order, and reports their number. -/
theorem walReplay_walFrames_append_torn (es : List Entry) (e : Entry) (t : Bytes)
    (hes : ∀ r ∈ es, r.WalFits) (he : e.WalFits) (ht : t <+: walFrame e)
    (hne : t ≠ walFrame e) : walReplay (walFrames es ++ t) = some (es, es.length) :=
  walReplay_eq_of_stop hes (replayStep_torn he ht hne)

/-- One record `("k", "v")` and a second one whose frame was cut behind five bytes. -/
theorem walReplay_one_record_torn :
    walReplay (walFrames [⟨[107], [118], .value⟩] ++ (walFrame ⟨[107], [], .tombstone⟩).take 5) =
      some ([⟨[107], [118], .value⟩], 1) :=
  walReplay_walFrames_append_torn _ ⟨[107], [], .tombstone⟩ _ (by decide) (by decide)
    (List.take_prefix _ _) (fun h => by simpa using congrArg List.length h)

/-! ## The records of a log -/

/-- The records a replay of the log hands to its handler. -/
def walRecords (buf : Bytes) : List Entry :=
  ((walReplay buf).map Prod.fst).getD []

/-- The records of a log in front of an unreadable end. -/
theorem walRecords_eq_of_stop {es : List Entry} {t : Bytes} (hes : ∀ e ∈ es, e.WalFits)
    (ht : replayStep t = some .stop) : walRecords (walFrames es ++ t) = es := by
  simp [walRecords, walReplay_eq_of_stop hes ht]

/-- The end of the log. -/
private theorem replayStep_nil : replayStep [] = some .stop := rfl

@[simp] theorem walRecords_walFrames {es : List Entry} (hes : ∀ e ∈ es, e.WalFits) :
    walRecords (walFrames es) = es := by
  simpa using walRecords_eq_of_stop hes replayStep_nil

/-- The replay reads every log to the end of its frames. -/
theorem walReplay_eq (buf : Bytes) :
    walReplay buf = some (walRecords buf, (walRecords buf).length) := by
  obtain ⟨es, t, hes, rfl, ht⟩ := exists_walFrames_append buf
  rw [walReplay_eq_of_stop hes ht, walRecords_eq_of_stop hes ht]

/-- A log that consists of whole frames. -/
def WholeFrames (buf : Bytes) : Prop :=
  ∃ es : List Entry, (∀ e ∈ es, e.WalFits) ∧ buf = walFrames es

/-- Whole frames behind whole frames. -/
theorem WholeFrames.append {buf : Bytes} {es : List Entry} (h : WholeFrames buf)
    (hes : ∀ e ∈ es, e.WalFits) : WholeFrames (buf ++ walFrames es) := by
  obtain ⟨fs, hfs, rfl⟩ := h
  refine ⟨fs ++ es, ?_, by simp⟩
  intro e he
  rcases List.mem_append.mp he with he | he
  · exact hfs e he
  · exact hes e he

/-- A log of whole frames is given by its records. -/
theorem WholeFrames.eq_walFrames {buf : Bytes} (h : WholeFrames buf) :
    buf = walFrames (walRecords buf) := by
  obtain ⟨es, hes, rfl⟩ := h
  rw [walRecords_walFrames hes]

/-- Every record that is read fits the format. -/
theorem fits_of_mem_walRecords {buf : Bytes} {e : Entry} (he : e ∈ walRecords buf) : e.WalFits := by
  obtain ⟨es, t, hes, rfl, ht⟩ := exists_walFrames_append buf
  rw [walRecords_eq_of_stop hes ht] at he
  exact hes e he

/-- Whether a log has only whole frames can be tested by reading it. -/
private theorem wholeFrames_iff {buf : Bytes} : WholeFrames buf ↔ buf = walFrames (walRecords buf) :=
  ⟨fun h => h.eq_walFrames, fun h => ⟨walRecords buf, fun _ he => fits_of_mem_walRecords he, h⟩⟩

instance : DecidablePred WholeFrames := fun _ => decidable_of_iff _ wholeFrames_iff.symm

/-- Frames appended to a log of whole frames are replayed behind its records. -/
theorem walRecords_append {buf : Bytes} {es : List Entry} (h : WholeFrames buf)
    (hes : ∀ e ∈ es, e.WalFits) :
    walRecords (buf ++ walFrames es) = walRecords buf ++ es := by
  obtain ⟨fs, hfs, rfl⟩ := h
  rw [walRecords_walFrames hfs, ← walFrames_append, walRecords_walFrames]
  intro e he
  rcases List.mem_append.mp he with he | he
  · exact hfs e he
  · exact hes e he

/-- A log that is cut inside the last frame. -/
theorem walRecords_append_torn {es : List Entry} {e : Entry} {t : Bytes}
    (hes : ∀ r ∈ es, r.WalFits) (he : e.WalFits) (ht : t <+: walFrame e) :
    walRecords (walFrames es ++ t) = es ∨ walRecords (walFrames es ++ t) = es ++ [e] := by
  by_cases hwhole : t = walFrame e
  · right
    have hframe : walFrame e = walFrames [e] := by simp [walFrames]
    rw [hwhole, hframe, walRecords_append ⟨es, hes, rfl⟩ (by simpa using he),
      walRecords_walFrames hes]
  · exact .inl (walRecords_eq_of_stop hes (replayStep_torn he ht hwhole))

/-! ## The grammar of a log -/

/-- A tail at which the replay stops does not begin with the frame of a record that fits. -/
private theorem not_walFrame_prefix_of_stop {t : Bytes} (ht : replayStep t = some .stop) {e : Entry}
    (he : e.WalFits) : ¬ walFrame e <+: t := by
  rintro ⟨rest, rfl⟩
  rw [replayStep_walFrame he] at ht
  cases ht

/-- The replay reads every log to its end, and it accepts exactly the frames at its beginning: they
    are those of the replayed records, and what follows does not begin with the frame of a record
    whose size the length of a frame can express. -/
theorem walReplay_grammar (buf : Bytes) :
    ∃ es rest, walReplay buf = some (es, es.length) ∧ buf = walFrames es ++ rest ∧
      ∀ e : Entry, e.WalFits → ¬ walFrame e <+: rest := by
  obtain ⟨es, t, hes, rfl, ht⟩ := exists_walFrames_append buf
  exact ⟨es, t, walReplay_eq_of_stop hes ht, rfl, fun e he => not_walFrame_prefix_of_stop ht he⟩

/-- The frame of a record whose payload has `2 ^ 32` bytes announces none, and the replay stops
    there whatever follows. -/
theorem replayStep_oversized {e : Entry} (he : 9 + e.key.length + e.value.length = 2 ^ 32)
    (rest : Bytes) : replayStep (walFrame e ++ rest) = some .stop := by
  have hzero : (walPayload e).length.toUInt32 = 0 := by
    rw [length_walPayload, he]
    rfl
  have hlong : kHeaderSize ≤ (walFrame e ++ rest).length := by
    rw [List.length_append, length_walFrame, kHeaderSize]
    omega
  have hcrc : decodeFixed32 (walFrame e ++ rest) = some (crc32 (walPayload e)) := by
    rw [walFrame, List.append_assoc, List.append_assoc, decodeFixed32_putFixed32]
  have hlen : decodeFixed32 ((walFrame e ++ rest).drop 4) = some 0 := by
    rw [walFrame, List.append_assoc, List.append_assoc, List.drop_left' (length_putFixed32 _),
      decodeFixed32_putFixed32, hzero]
  have hfits : ¬ kHeaderSize + (0 : UInt32).toNat > (walFrame e ++ rest).length := by
    rw [UInt32.toNat_zero]
    omega
  have hload : loadBytes ((walFrame e ++ rest).drop kHeaderSize) (0 : UInt32).toNat = some [] := rfl
  -- the checksum of no bytes does not match, or the length is too small
  simp only [replayStep, hlong, hcrc, hlen, hload, bind, Option.bind, not_true, if_false,
    if_neg hfits]
  split
  · rfl
  · rfl

/-- There is a record of that size. -/
theorem exists_oversized : ∃ e : Entry, 9 + e.key.length + e.value.length = 2 ^ 32 := by
  obtain ⟨value, hvalue⟩ : ∃ value : Bytes, value.length = 2 ^ 32 - 9 :=
    ⟨List.replicate (2 ^ 32 - 9) 0, List.length_replicate⟩
  refine ⟨⟨[], value, .value⟩, ?_⟩
  show 9 + 0 + value.length = 2 ^ 32
  omega

/-- The frame of a record that is too large is written whole and not replayed. -/
theorem walReplay_oversized_frame :
    ∃ (buf : Bytes) (es : List Entry) (rest : Bytes) (e : Entry),
      walReplay buf = some (es, es.length) ∧ buf = walFrames es ++ rest ∧ walFrame e <+: rest := by
  obtain ⟨e, hsize⟩ := exists_oversized
  have hstop := replayStep_oversized hsize []
  rw [List.append_nil] at hstop
  exact ⟨walFrame e, [], walFrame e, e, walReplayLoop_stop 0 hstop, rfl, List.prefix_rfl⟩

end Lsmdb
