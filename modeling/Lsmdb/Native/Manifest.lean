import Lsmdb.Native.Version

/-!
# File names and the manifest (`db.cpp`)

The names of the files in the directory of a database, and the manifest as bytes:
what `WriteManifest` writes, and what `LoadManifest` makes of a buffer. File numbers
are natural numbers; `uint64_t` arithmetic on them is taken modulo `2 ^ 64`.
-/

namespace Lsmdb

/-! ## File names -/

def walName : String := "wal.log"
def manifestName : String := "MANIFEST"
def manifestTmpName : String := "MANIFEST.tmp"

/-- `NumberToName`: `"%06llu.sst"`. -/
def numberToName (number : Nat) : String :=
  let digits := Nat.toDigits 10 number
  String.ofList (List.replicate (6 - digits.length) '0' ++ digits ++ ['.', 's', 's', 't'])

/-- One turn of the loop of `ParseFileNumber`. -/
def parseDigit (n : Nat) (c : Char) : Option Nat :=
  if '0' ≤ c ∧ c ≤ '9' then some ((n * 10 + (c.toNat - '0'.toNat)) % 2 ^ 64) else none

/-- `ParseFileNumber`: expects `"<digits>.sst"`. -/
def parseFileNumber (name : String) : Option Nat :=
  let stem := name.toList.takeWhile (· ≠ '.')
  -- the first dot must be that of the suffix
  if name.toList.dropWhile (· ≠ '.') ≠ ['.', 's', 's', 't'] then none
  else if stem = [] then none
  else stem.foldlM parseDigit 0

/-! ## The manifest -/

/-- The entry of one file. -/
def manifestFile (f : FileMeta) : Bytes :=
  putFixed64 f.number.toUInt64 ++ putFixed64 f.fileSize ++ putFixed64 f.numEntries ++
    putLengthPrefixed f.smallest ++ putLengthPrefixed f.largest

/-- The entry of one level. -/
def manifestLevel (level : List FileMeta) : Bytes :=
  putFixed32 level.length.toUInt32 ++ level.flatMap manifestFile

/-- The buffer that `WriteManifest` writes. -/
def manifestBytes (nextFileNumber : Nat) (v : Version) : Bytes :=
  putFixed64 nextFileNumber.toUInt64 ++ putFixed32 v.levels.length.toUInt32 ++
    v.levels.flatMap manifestLevel

section Load

/-- A length-prefixed key at the cursor, with the messages of its two bounds checks. -/
def loadKey (p : Bytes) (short short2 : String) : Option (Except Status (Bytes × Bytes)) := do
  if p.length < 4 then return .error (.corruption short)
  let len ← decodeFixed32 p
  let p := p.drop 4
  if p.length < len.toNat then return .error (.corruption short2)
  let key ← loadBytes p len.toNat
  return .ok (key, p.drop len.toNat)

variable (openTable : Nat → Option (Except Status SSTableReader))

/-- The body of the inner loop of `LoadManifest`. -/
def loadFile (p : Bytes) : Option (Except Status (FileMeta × Bytes)) := do
  if p.length < 24 then return .error (.corruption "manifest truncated (file)")
  let number ← decodeFixed64 p
  let fileSize ← decodeFixed64 (p.drop 8)
  let numEntries ← decodeFixed64 (p.drop 16)
  match ← loadKey (p.drop 24) "manifest truncated (skey)" "manifest truncated (skey2)" with
  | .error s => return .error s
  | .ok (smallest, p) =>
    match ← loadKey p "manifest truncated (lkey)" "manifest truncated (lkey2)" with
    | .error s => return .error s
    | .ok (largest, p) =>
      -- the table is opened while the manifest is read, and its error ends the load
      match ← openTable number.toNat with
      | .error s => return .error s
      | .ok reader => return .ok (⟨number.toNat, smallest, largest, fileSize, numEntries, reader⟩, p)

/-- The inner loop, for the given number of files. -/
def loadFiles : Nat → Bytes → Option (Except Status (List FileMeta × Bytes))
  | 0, p => some (.ok ([], p))
  | n + 1, p => do
    match ← loadFile openTable p with
    | .error s => return .error s
    | .ok (f, p) =>
      match ← loadFiles n p with
      | .error s => return .error s
      | .ok (files, p) => return .ok (f :: files, p)

/-- The outer loop, for the given number of levels. -/
def loadLevels : Nat → Bytes → Option (Except Status (List (List FileMeta)))
  | 0, _ => some (.ok [])
  | n + 1, p => do
    if p.length < 4 then return .error (.corruption "manifest truncated (level)")
    let numFiles ← decodeFixed32 p
    match ← loadFiles openTable numFiles.toNat (p.drop 4) with
    | .error s => return .error s
    | .ok (files, p) =>
      match ← loadLevels n p with
      | .error s => return .error s
      | .ok levels => return .ok (files :: levels)

/-- `LoadManifest` on the contents of the manifest: the version and the next file number. Here
    there is memory for the levels; that there may be none is modelled in
    `Lsmdb.Native.Recovery`. -/
def loadManifest (buf : Bytes) : Option (Except Status (Version × Nat)) := do
  if buf.length < 12 then return .error (.corruption "manifest too short")
  let nextFile ← decodeFixed64 buf
  let numLevels ← decodeFixed32 (buf.drop 8)
  match ← loadLevels openTable numLevels.toNat (buf.drop 12) with
  | .error s => return .error s
  | .ok levels =>
    -- a version always has L0
    let v : Version := ⟨if numLevels = 0 then [[]] else levels⟩
    -- never below a number that is in use
    let maxNumber := (v.levels.flatten.map (·.number)).foldl max 0
    return .ok (v, max nextFile.toNat ((maxNumber + 1) % 2 ^ 64))

end Load

end Lsmdb
