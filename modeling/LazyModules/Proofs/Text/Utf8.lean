import LazyModules.Text.Utf8

/-!
# Texts as bytes

A text is kept in a file as the UTF-8 of its characters. Reading takes one sequence after the other and finds the
character that it was made for, whatever its width and whatever comes after it, so the text is read back.

**Results.** `step_encodeChar`: the sequence of a character. `decode_encode`: the bytes of a text.
-/
namespace LazyModules.Text.Utf8

def encode (s : String) : List UInt8 := s.toList.flatMap String.utf8EncodeChar

/-! ## Bytes by their numbers -/

variable {b c : UInt8}

theorem widthOf_eq (b : UInt8) : widthOf b =
    if b.toNat < 0x80 then some 1 else if b.toNat < 0xc2 then none else if b.toNat < 0xe0 then some 2
    else if b.toNat < 0xf0 then some 3 else if b.toNat < 0xf5 then some 4 else none := by
  simp only [widthOf, UInt8.lt_iff_toNat_lt, UInt8.reduceToNat]

theorem isContinuation_iff : isContinuation b = true ↔ 0x80 ≤ b.toNat ∧ b.toNat ≤ 0xbf := by
  simp only [isContinuation, UInt8.le_iff_toNat_le, UInt8.reduceToNat, Bool.and_eq_true, decide_eq_true_eq]

/-- A byte that continues a sequence may come second, unless the first one leaves it too little or too much. -/
theorem maySecond_of (hc : isContinuation c = true) (he0 : b.toNat = 0xe0 → 0xa0 ≤ c.toNat)
    (hed : b.toNat = 0xed → c.toNat ≤ 0x9f) (hf0 : b.toNat = 0xf0 → 0x90 ≤ c.toNat)
    (hf4 : b.toNat = 0xf4 → c.toNat ≤ 0x8f) : maySecond b c = true := by
  simp only [maySecond, hc, UInt8.lt_iff_toNat_lt, ← UInt8.toNat_inj, UInt8.reduceToNat, Bool.true_and, Bool.not_eq_true',
    Bool.or_eq_false_iff, Bool.and_eq_false_iff, decide_eq_false_iff_not]
  omega

/-! ## Sequences -/

theorem step_one (hb : b.toNat < 0x80) (rest : List UInt8) : step b rest = .char (Char.ofNat b.toNat) 1 := by
  simp [step, widthOf_eq, hb]

theorem step_two (hb : 0xc2 ≤ b.toNat) (hb' : b.toNat < 0xe0) (hc : isContinuation c = true) (rest : List UInt8) :
    step b (c :: rest) = .char (Char.ofNat (b.toNat % 32 * 64 + payload c)) 2 := by
  have hwidth : widthOf b = some 2 := by
    rw [widthOf_eq, if_neg (by omega), if_neg (by omega), if_pos hb']
  have hsecond : maySecond b c = true := maySecond_of hc (by omega) (by omega) (by omega) (by omega)
  simp [step, hwidth, hsecond]

theorem step_three {d : UInt8} (hb : 0xe0 ≤ b.toNat) (hb' : b.toNat < 0xf0) (hc : maySecond b c = true)
    (hd : isContinuation d = true) (rest : List UInt8) :
    step b (c :: d :: rest) = .char (Char.ofNat ((b.toNat % 16 * 64 + payload c) * 64 + payload d)) 3 := by
  have hwidth : widthOf b = some 3 := by
    rw [widthOf_eq, if_neg (by omega), if_neg (by omega), if_neg (by omega), if_pos hb']
  simp [step, hwidth, hc, hd]

theorem step_four {d e : UInt8} (hb : 0xf0 ≤ b.toNat) (hb' : b.toNat < 0xf5) (hc : maySecond b c = true)
    (hd : isContinuation d = true) (he : isContinuation e = true) (rest : List UInt8) :
    step b (c :: d :: e :: rest) =
      .char (Char.ofNat (((b.toNat % 8 * 64 + payload c) * 64 + payload d) * 64 + payload e)) 4 := by
  have hwidth : widthOf b = some 4 := by
    rw [widthOf_eq, if_neg (by omega), if_neg (by omega), if_neg (by omega), if_neg (by omega), if_pos hb']
  simp [step, hwidth, hc, hd, he]

/-- A byte that goes on with six bits of a number. -/
theorem continuation (n : Nat) :
    isContinuation (UInt8.ofNat (n % 64 + 128)) = true ∧ payload (UInt8.ofNat (n % 64 + 128)) = n % 64 := by
  have hbyte : (UInt8.ofNat (n % 64 + 128)).toNat = n % 64 + 128 := by
    rw [UInt8.toNat_ofNat']
    omega
  rw [isContinuation_iff, payload, hbyte]
  omega

/-- The sequence of a character is read as that character, and takes all its bytes. -/
theorem step_encodeChar (c : Char) (rest : List UInt8) :
    ∃ b bs, String.utf8EncodeChar c = b :: bs ∧ step b (bs ++ rest) = .char c (bs.length + 1) := by
  have hvalid : c.val.toNat < 0xd800 ∨ 0xdfff < c.val.toNat ∧ c.val.toNat < 0x110000 := c.valid
  have hchar {n : Nat} (hn : n = c.val.toNat) : Char.ofNat n = c := hn ▸ Char.ofNat_toNat c
  have hbyte {n : Nat} (hn : n < 256) : (UInt8.ofNat n).toNat = n := by
    rw [UInt8.toNat_ofNat']
    omega
  unfold String.utf8EncodeChar
  generalize c.val.toNat = v at hvalid hchar
  obtain ⟨hlow, hlow'⟩ := continuation v
  obtain ⟨hmiddle, hmiddle'⟩ := continuation (v / 64)
  obtain ⟨hhigh, hhigh'⟩ := continuation (v / 4096)
  simp only
  -- one case for each width; the bytes hold the bits of the number, the highest first
  split
  · refine ⟨_, _, rfl, (step_one ?_ _).trans ?_⟩
    · rw [hbyte] <;> omega
    · rw [hbyte (by omega), hchar rfl]
      rfl
  split
  · refine ⟨_, _, rfl, (step_two ?_ ?_ hlow _).trans ?_⟩
    · rw [hbyte] <;> omega
    · rw [hbyte] <;> omega
    · rw [hbyte (by omega), hlow', hchar (by omega)]
      rfl
  split
  · refine ⟨_, _, rfl, (step_three ?_ ?_ (maySecond_of hmiddle ?_ ?_ ?_ ?_) hlow _).trans ?_⟩
    · rw [hbyte] <;> omega
    · rw [hbyte] <;> omega
    · rw [hbyte, hbyte] <;> omega
    · rw [hbyte, hbyte] <;> omega
    · rw [hbyte] <;> omega
    · rw [hbyte] <;> omega
    · rw [hbyte (by omega), hmiddle', hlow', hchar (by omega)]
      rfl
  · refine ⟨_, _, rfl, (step_four ?_ ?_ (maySecond_of hhigh ?_ ?_ ?_ ?_) hmiddle hlow _).trans ?_⟩
    · rw [hbyte] <;> omega
    · rw [hbyte] <;> omega
    · rw [hbyte] <;> omega
    · rw [hbyte] <;> omega
    · rw [hbyte, hbyte] <;> omega
    · rw [hbyte, hbyte] <;> omega
    · rw [hbyte (by omega), hhigh', hmiddle', hlow', hchar (by omega)]
      rfl

/-! ## Texts -/

theorem decodeFrom_skip (front rest : List UInt8) (pos : Nat) :
    decodeFrom (front ++ rest) front.length pos = decodeFrom rest 0 (pos + front.length) := by
  induction front generalizing pos with
  | nil => rfl
  | cons b front ih => rw [List.cons_append, List.length_cons, decodeFrom, ih, Nat.add_right_comm, Nat.add_assoc]

/-- The bytes of some characters are read as those characters. -/
theorem decodeFrom_flatMap (cs : List Char) (pos : Nat) :
    decodeFrom (cs.flatMap String.utf8EncodeChar) 0 pos = .ok cs := by
  induction cs generalizing pos with
  | nil => rfl
  | cons c cs ih =>
    obtain ⟨b, bs, hbytes, hstep⟩ := step_encodeChar c (cs.flatMap String.utf8EncodeChar)
    rw [List.flatMap_cons, hbytes, List.cons_append, decodeFrom, hstep]
    simp only [Nat.add_sub_cancel, decodeFrom_skip, ih]
    rfl

/-- The bytes of a text are read as the text. -/
theorem decode_encode (s : String) : decode (encode s) = .ok s := by
  rw [decode, encode, decodeFrom_flatMap, Except.map, String.ofList_toList]

end LazyModules.Text.Utf8
