import Glr.Proofs.Payload
import Glr.Tables.Blob
import Mathlib.Algebra.Group.Nat.Defs

/-!
# Blobs read as they were written

A blob is four parts one after the other: the magic bytes, the version, the declared length and the
payload.  `decode_assemble` says what `decode` makes of any four such parts, and every twelve bytes
or more with the right magic are such parts (`exists_eq_assemble`), so nothing else is said about
`decode` than that one equation.  The round trip, the fate of a blob that was cut short, of one of
another version, and what an accepted blob must have been, are all read off it.
-/

namespace Glr.Blob

/-! ## Words -/

@[simp] theorem size_word (n : Nat) : (word n).size = 4 := rfl

@[simp] theorem size_magic : magic.size = 4 := rfl

theorem toNat_ofNat_mod (n : Nat) : (UInt8.ofNat n).toNat = n % 256 := UInt8.toNat_ofNat'

theorem wordAt_word {n : Nat} (h : n < 2 ^ 32) (front back : Text) :
    wordAt (front ++ word n ++ back) front.size = n := by
  have byte (i : Nat) (hi : i < 4) :
      (front ++ word n ++ back).getD (front.size + i) 0 = (word n).getD i 0 := by
    simp only [Array.getD_eq_getD_getElem?]
    rw [Array.append_assoc, Array.getElem?_append_right (by omega), Nat.add_sub_cancel_left,
      Array.getElem?_append_left (by simpa using hi)]
  simp only [wordAt, byte 0 (by omega), byte 1 (by omega), byte 2 (by omega), byte 3 (by omega)]
  simp only [word, Array.getD_eq_getD_getElem?, List.getElem?_toArray, List.getElem?_cons_zero,
    List.getElem?_cons_succ, Option.getD_some, toNat_ofNat_mod]
  omega

theorem wordAt_lt (bytes : Text) (offset : Nat) : wordAt bytes offset < 2 ^ 32 := by
  have byte (i : Nat) : (bytes.getD (offset + i) 0).toNat < 256 := UInt8.toNat_lt _
  have := byte 0
  have := byte 1
  have := byte 2
  have := byte 3
  simp only [wordAt]
  omega

theorem word_wordAt {bytes : Text} {offset : Nat} (h : offset + 4 ≤ bytes.size) :
    word (wordAt bytes offset) = bytes.extract offset (offset + 4) := by
  have byte (i : Nat) : (bytes.getD (offset + i) 0).toNat < 256 := UInt8.toNat_lt _
  have value (i m : Nat) (hm : m % 256 = (bytes.getD (offset + i) 0).toNat) :
      UInt8.ofNat m = bytes.getD (offset + i) 0 := by
    apply UInt8.toNat_inj.mp
    rw [toNat_ofNat_mod, hm]
  have := byte 0
  have := byte 1
  have := byte 2
  have := byte 3
  have parts : word (wordAt bytes offset) = #[bytes.getD (offset + 0) 0, bytes.getD (offset + 1) 0,
      bytes.getD (offset + 2) 0, bytes.getD (offset + 3) 0] := by
    simp only [word, wordAt]
    rw [value 0 _ (by omega), value 1 _ (by omega), value 2 _ (by omega), value 3 _ (by omega)]
  rw [parts]
  apply Array.ext
  · simp; omega
  · intro i hi _
    have : i = 0 ∨ i = 1 ∨ i = 2 ∨ i = 3 := by simp at hi; omega
    rcases this with rfl | rfl | rfl | rfl <;>
      simp [Array.getD_eq_getD_getElem?, show offset < bytes.size by omega,
        show offset + 1 < bytes.size by omega, show offset + 2 < bytes.size by omega,
        show offset + 3 < bytes.size by omega]

/-! ## Parts -/

section

variable {version declared : Nat} {payload : Text}

@[simp] theorem size_assemble :
    (assemble magic version declared payload).size = 12 + payload.size := by
  simp only [assemble, Array.size_append, size_magic, size_word]

theorem extract_magic : (assemble magic version declared payload).extract 0 4 = magic := by
  rw [assemble, Array.append_assoc, Array.append_assoc, ← size_magic]
  simp

theorem extract_payload :
    (assemble magic version declared payload).extract headerSize
      (assemble magic version declared payload).size = payload := by
  have header : (magic ++ word version ++ word declared).size = headerSize := rfl
  rw [assemble, Array.size_append, ← header, Array.extract_append_right, Array.extract_size]

theorem wordAt_version (h : version < 2 ^ 32) :
    wordAt (assemble magic version declared payload) 4 = version := by
  rw [assemble, Array.append_assoc]
  exact wordAt_word h magic _

theorem wordAt_declared (h : declared < 2 ^ 32) :
    wordAt (assemble magic version declared payload) 8 = declared :=
  wordAt_word h (magic ++ word version) payload

/-- Twelve bytes or more with the right magic are the parts of a blob. -/
theorem exists_eq_assemble {bytes : Text} (long : headerSize ≤ bytes.size)
    (front : bytes.extract 0 4 = magic) :
    bytes = assemble magic (wordAt bytes 4) (wordAt bytes 8)
      (bytes.extract headerSize bytes.size) := by
  have long : 12 ≤ bytes.size := long
  rw [assemble, ← front, word_wordAt (by omega), word_wordAt (by omega)]
  simp [headerSize, Array.extract_append_extract, Nat.max_eq_right long]

/-! ## Decoding parts -/

/-- What the payload of a blob comes to, its length and version being right. -/
def decodePayload (version : Nat) (payload : Text) : Except LoadError (Nat × Tables) :=
  match Tables.ofPayload? payload with
  | none => .error (.corruptBlob .malformedPayload)
  | some t =>
    match t.fault? with
    | some fault => .error (.corruptBlob (.tables fault))
    | none => .ok (version, t)

/-- What any parts are decoded as: the version is looked at first, then the length. -/
theorem decode_assemble (hv : version < 2 ^ 32) (hd : declared < 2 ^ 32) :
    decode (assemble magic version declared payload)
      = if version < 13 ∨ 14 < version then .error (.incompatibleVersion version)
        else if payload.size ≠ declared then
          .error (.corruptBlob (.lengthMismatch payload.size declared))
        else decodePayload version payload := by
  have peek : peekVersion (assemble magic version declared payload) = .ok version := by
    rw [peekVersion, if_neg (by simp [headerSize]), if_neg (by simp [extract_magic]),
      wordAt_version hv]
  have length : wordAt (assemble magic version declared payload) 8 = declared := wordAt_declared hd
  have rest : (assemble magic version declared payload).extract headerSize
      (assemble magic version declared payload).size = payload := extract_payload
  generalize assemble magic version declared payload = bytes at peek length rest ⊢
  unfold decode
  have looked : (decide (version < oldestVersion) || decide (currentVersion < version)) = true ↔
      version < 13 ∨ 14 < version := by
    rw [Bool.or_eq_true, decide_eq_true_eq, decide_eq_true_eq]
    rfl
  by_cases range : version < 13 ∨ 14 < version
  · rw [if_pos range]
    simp only [peek, Except.bind, bind, if_pos (looked.mpr range)]
    rfl
  · rw [if_neg range]
    by_cases size : payload.size ≠ declared
    · rw [if_pos size]
      simp only [peek, Except.bind, bind, if_neg (mt looked.mp range), length, rest, if_pos size]
      rfl
    · rw [if_neg size]
      simp only [peek, Except.bind, bind, if_neg (mt looked.mp range), length, rest, if_neg size]
      cases found : Tables.ofPayload? payload with
      | none => simp [decodePayload, found]; rfl
      | some t => cases fault : t.fault? <;> simp [decodePayload, found, fault] <;> rfl

end

/-- Bytes whose front is no header are decoded as nothing. -/
theorem decode_of_peek_error {bytes : Text} {e : LoadError} (h : peekVersion bytes = .error e) :
    decode bytes = .error e := by
  rw [decode, h]
  rfl

theorem peekVersion_of_short {bytes : Text} (h : bytes.size < headerSize) :
    peekVersion bytes = .error (.corruptBlob (.shorterThanHeader bytes.size)) := by
  rw [peekVersion, if_pos h]

theorem peekVersion_of_magic_ne {bytes : Text} (long : ¬ bytes.size < headerSize)
    (h : bytes.extract 0 4 ≠ magic) : peekVersion bytes = .error (.corruptBlob .badMagic) := by
  rw [peekVersion, if_neg long, if_pos h]

theorem eq_of_decodePayload {version : Nat} {payload : Text} {r : Nat × Tables}
    (h : decodePayload version payload = .ok r) :
    r.1 = version ∧ Tables.ofPayload? payload = some r.2 ∧ r.2.fault? = none := by
  unfold decodePayload at h
  split at h
  · cases h
  · next t found =>
    split at h
    · cases h
    · next valid =>
      obtain rfl := Except.ok.inj h
      exact ⟨rfl, found, valid⟩

/-! ## What follows -/

theorem decodePayload_payload {t : Tables} (h : t.Fits) (valid : t.fault? = none) (version : Nat) :
    decodePayload version t.payload = .ok (version, t) := by
  simp [decodePayload, Tables.ofPayload?_payload h, valid]

/-- A version outside the range is reported as such, whatever stands behind it. -/
theorem decode_of_version_outside {version : Nat} (hv : version < 2 ^ 32)
    (outside : version < 13 ∨ 14 < version) {rest : Text} (long : 4 ≤ rest.size) :
    decode (magic ++ word version ++ rest) = .error (.incompatibleVersion version) := by
  have parts : magic ++ word version ++ rest
      = assemble magic version (wordAt rest 0) (rest.extract 4 rest.size) := by
    rw [assemble, word_wordAt (by omega), Array.append_assoc, Array.append_assoc,
      Array.append_assoc]
    simp [Array.extract_append_extract, Nat.max_eq_right long]
  rw [parts, decode_assemble hv (wordAt_lt rest 0), if_pos outside]

theorem decode_encode {t : Tables} (h : t.Fits) (valid : t.fault? = none)
    (short : t.payload.size < 2 ^ 32) {version : Nat} (inside : 13 ≤ version ∧ version ≤ 14) :
    decode (encode t version) = .ok (version, t) := by
  have declared : Size.ofText t.payload = t.payload.size :=
    Nat.min_eq_left (by simp only [Size.largest]; omega)
  rw [encode, declared, decode_assemble (by omega) short, if_neg (by omega),
    if_neg (fun differs => differs rfl), decodePayload_payload h valid]

/-- A blob that was cut short is corrupt: in its header it is too short, and behind that the length
is not the one declared. -/
theorem decode_prefix {t : Tables} (short : t.payload.size < 2 ^ 32) {version : Nat}
    (inside : 13 ≤ version ∧ version ≤ 14) {n : Nat} (cut : n < (encode t version).size) :
    ∃ fault, decode ((encode t version).extract 0 n) = .error (.corruptBlob fault) := by
  have declared : Size.ofText t.payload = t.payload.size :=
    Nat.min_eq_left (by simp only [Size.largest]; omega)
  rw [encode, declared] at cut ⊢
  rw [size_assemble] at cut
  by_cases header : n < 12
  · have size : ((assemble magic version t.payload.size t.payload).extract 0 n).size = n := by
      rw [Array.size_extract, size_assemble]
      omega
    exact ⟨_, decode_of_peek_error (peekVersion_of_short (by rw [size]; exact header))⟩
  · refine ⟨.lengthMismatch (t.payload.extract 0 (n - 12)).size t.payload.size, ?_⟩
    have parts : (assemble magic version t.payload.size t.payload).extract 0 n
        = assemble magic version t.payload.size (t.payload.extract 0 (n - 12)) := by
      have header : (magic ++ word version ++ word t.payload.size).size = 12 := rfl
      rw [assemble, assemble, Array.extract_append, header, Nat.zero_sub,
        Array.extract_eq_self_of_le (by omega)]
    rw [parts, decode_assemble (by omega) short, if_neg (by omega), if_pos]
    rw [Array.size_extract]
    omega

/-- What a blob was that was accepted: one of a version in the range, with its length declared, and
with valid tables in it. -/
theorem eq_assemble_of_decode {bytes : Text} {version : Nat} {t : Tables}
    (accepted : decode bytes = .ok (version, t)) :
    (13 ≤ version ∧ version ≤ 14) ∧ t.fault? = none ∧ ∃ payload : Text,
      payload.size < 2 ^ 32 ∧ bytes = assemble magic version payload.size payload ∧
      Tables.ofPayload? payload = some t := by
  have long : ¬ bytes.size < headerSize := by
    intro short
    rw [decode_of_peek_error (peekVersion_of_short short)] at accepted
    cases accepted
  have front : bytes.extract 0 4 = magic := by
    refine Decidable.byContradiction fun other => ?_
    rw [decode_of_peek_error (peekVersion_of_magic_ne long other)] at accepted
    cases accepted
  have parts := exists_eq_assemble (Nat.not_lt.mp long) front
  generalize bytes.extract headerSize bytes.size = payload at parts
  rw [parts, decode_assemble (wordAt_lt bytes 4) (wordAt_lt bytes 8)] at accepted
  split at accepted
  · cases accepted
  · next inside =>
    split at accepted
    · cases accepted
    · next length =>
      obtain ⟨rfl, found, valid⟩ := eq_of_decodePayload accepted
      have length : payload.size = wordAt bytes 8 := Decidable.not_not.mp length
      exact ⟨by omega, valid, payload, length ▸ wordAt_lt bytes 8, length ▸ parts, found⟩

/-- The format of blobs, as a whole. -/
theorem blob_format :
    (∀ (t : Tables) (version : Nat), t.Fits → t.fault? = none → t.payload.size < 2 ^ 32 →
      13 ≤ version ∧ version ≤ 14 →
      decode (encode t version) = .ok (version, t) ∧
      ∀ n < (encode t version).size, ∃ fault,
        decode ((encode t version).extract 0 n) = .error (.corruptBlob fault)) ∧
    (∀ (version : Nat) (rest : Text), version < 2 ^ 32 → version < 13 ∨ 14 < version →
      4 ≤ rest.size →
      decode (magic ++ word version ++ rest) = .error (.incompatibleVersion version)) ∧
    ∀ (bytes : Text) (version : Nat) (t : Tables), decode bytes = .ok (version, t) →
      (13 ≤ version ∧ version ≤ 14) ∧ t.fault? = none ∧ ∃ payload : Text,
        payload.size < 2 ^ 32 ∧ bytes = assemble magic version payload.size payload ∧
        Tables.ofPayload? payload = some t :=
  ⟨fun _ _ fits valid short inside =>
      ⟨decode_encode fits valid short inside, fun _ => decode_prefix short inside⟩,
    fun _ _ small outside long => decode_of_version_outside small outside long,
    fun _ _ _ => eq_assemble_of_decode⟩

/-- Tables with something to escape in every string, a level below zero, a cell with two moves and
every optional field. -/
def motley : Tables where
  name := "\"mot\\ley\"\n\x01é😀"
  symbols := #[⟨"end", true, false, false, false⟩, ⟨"ERROR", true, true, true, false⟩,
    ⟨"\t\x1f\x7f", true, true, true, true⟩, ⟨"文", false, true, true, false⟩]
  productions := #[⟨3, 0, -7, .neither, 0⟩, ⟨3, 1, 2147483647, .right, -2147483648⟩]
  states := #[⟨[(0, [.reduce 0, .accept]), (2, [.shift 1])], [(3, 1)], 0⟩,
    ⟨[(0, [.reduce 1])], [], 0⟩]
  lexModes := #[[2]]
  tokens := [⟨2, .regex "[^\\]\r+"⟩, ⟨2, .literal "\x08\x0c\"/"⟩]
  extras := [2]
  wordToken := some 2
  externalTokens := [2]
  startSymbol := 3

theorem motley_fits : motley.Fits :=
  ⟨by decide, by decide, by decide, by decide, by decide, by decide, by decide, by decide⟩

theorem motley_format :
    decode (encode motley 13) = .ok (13, motley) ∧
    (∃ fault, decode ((encode motley 13).extract 0 400) = .error (.corruptBlob fault)) ∧
    decode (magic ++ word 15 ++ #[1, 2, 3, 4, 5]) = .error (.incompatibleVersion 15) ∧
    ∃ payload : Text, payload.size < 2 ^ 32 ∧
      encode motley 13 = assemble magic 13 payload.size payload ∧
      Tables.ofPayload? payload = some motley := by
  obtain ⟨roundTrip, outside, accepted⟩ := blob_format
  have size : motley.payload.size = 898 := by
    rw [Tables.payload, Json.size_render]
    decide +kernel
  have read :=
    roundTrip motley 13 motley_fits (by decide +kernel) (by rw [size]; decide) (by decide)
  have long : (encode motley 13).size = 910 := by rw [encode, size_assemble, size]
  exact ⟨read.1, read.2 400 (by rw [long]; decide),
    outside 15 #[1, 2, 3, 4, 5] (by decide) (by decide) (by decide),
    (accepted _ 13 motley read.1).2.2⟩

end Glr.Blob
