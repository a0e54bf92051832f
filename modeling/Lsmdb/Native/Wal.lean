import Lsmdb.Native.Checksum

/-!
# The write-ahead log (`wal.cpp`)

`WalWriter::AddRecord` frames a record as `crc32 | length | payload`, and
`WalReplay` decodes a log buffer frame by frame until it meets the first one that
is torn or corrupt. The file-system calls around the two stand in
`Lsmdb.Native.DB`; here are the bytes.
-/

namespace Lsmdb

/-- `kHeaderSize`: crc and length. -/
def kHeaderSize : Nat := 4 + 4

/-- The payload `AddRecord` builds. Both lengths are narrowed to `u32`. -/
def walPayload (e : Entry) : Bytes :=
  [e.type.raw] ++ putFixed32 e.key.length.toUInt32 ++ e.key ++
    putFixed32 e.value.length.toUInt32 ++ e.value

/-- The frame `AddRecord` appends to the log. -/
def walFrame (e : Entry) : Bytes :=
  putFixed32 (crc32 (walPayload e)) ++ putFixed32 (walPayload e).length.toUInt32 ++
    walPayload e

/-- The bytes a list of `AddRecord` calls appends. -/
def walFrames (es : List Entry) : Bytes := es.flatMap walFrame

/-- What one iteration of the loop of `WalReplay` does: leave the loop, or hand a record to the
    handler and go on behind it. -/
inductive ReplayStep
  | stop
  | record (e : Entry) (rest : Bytes)
  deriving DecidableEq, Repr

/-- One iteration of the loop of `WalReplay` at the bytes from `pos` on. The outer option is
    `none` if the code reads outside of the buffer. -/
def replayStep (p : Bytes) : Option ReplayStep := do
  if ¬ kHeaderSize ≤ p.length then return .stop
  let crc ← decodeFixed32 p
  let len ← decodeFixed32 (p.drop 4)
  -- torn tail record
  if kHeaderSize + len.toNat > p.length then return .stop
  let payload := p.drop kHeaderSize
  -- corrupt tail record
  if crc32 (← loadBytes payload len.toNat) ≠ crc then return .stop
  if len < 1 + 4 then return .stop
  let type ← payload[0]?
  let q := payload.drop 1
  let klen ← decodeFixed32 q
  let q := q.drop 4
  if 1 + 4 + klen.toNat + 4 > len.toNat then return .stop
  let key ← loadBytes q klen.toNat
  let q := q.drop klen.toNat
  let vlen ← decodeFixed32 q
  let q := q.drop 4
  if 1 + 4 + klen.toNat + 4 + vlen.toNat ≠ len.toNat then return .stop
  let value ← loadBytes q vlen.toNat
  return .record ⟨key, value, ⟨type⟩⟩ (p.drop (kHeaderSize + len.toNat))

/-- A step that yields a record consumes at least its header. -/
theorem replayStep_length_lt {p rest : Bytes} {e : Entry}
    (h : replayStep p = some (.record e rest)) : rest.length < p.length := by
  simp only [replayStep, bind, Option.bind_eq_some_iff, Option.pure_def, ite_eq_iff,
    Option.some.injEq, reduceCtorEq, and_false, false_or, ReplayStep.record.injEq,
    not_not] at h
  obtain ⟨hlen, -, -, len, -, -, -, -, -, -, -, -, -, -, -, -, -, -, -, -, -, -, -, rfl⟩ := h
  simp only [kHeaderSize] at hlen
  simp only [List.length_drop, kHeaderSize]
  omega

/-- The loop of `WalReplay`: the records handed to the handler, in order, and the count it
    reports. -/
def walReplayLoop (p : Bytes) (count : Nat) : Option (List Entry × Nat) :=
  match _h : replayStep p with
  | none => none
  | some .stop => some ([], count)
  | some (.record e rest) => do
    let (es, n) ← walReplayLoop rest (count + 1)
    return (e :: es, n)
termination_by p.length
decreasing_by exact replayStep_length_lt _h

/-- `WalReplay` over the contents of the log. -/
def walReplay (buf : Bytes) : Option (List Entry × Nat) := walReplayLoop buf 0

end Lsmdb
