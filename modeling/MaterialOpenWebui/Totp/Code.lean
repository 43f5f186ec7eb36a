import MaterialOpenWebui.Js.Bytes
import MaterialOpenWebui.Js.Digits
import MaterialOpenWebui.Lib.BitString
import MaterialOpenWebui.Lib.LittleEndian

/-!
# `Totp.Code` — one-time codes (`app/js/core/totp.js`)

RFC 6238 over RFC 4226. The secret is Base32 text, the counter is the number of periods since the epoch, and
the code is a few decimal digits cut out of an HMAC. `crypto.subtle.sign('HMAC', ·)` is the parameter `hmac`;
bitwise operators of the source work on 32 bits, so its accumulators are `UInt32`.

`normaliseAlgorithm` and the `otpauth://` texts are not part of this module: an algorithm is one of the three
it accepts.
-/

namespace MaterialOpenWebui
namespace Totp
open Js BitString

/-! ## Base32 -/

/-- The Base32 letters and digits in `toUpperCase()` of one code unit. Besides `a` to `z` there are the
    dotless `ı`, the long `ſ`, and the letters that turn into several: `ß`, the ligatures, and those whose
    accent becomes a character of its own. -/
def upperUnit (u : UInt16) : JsString :=
  if 0x61 ≤ u ∧ u ≤ 0x7a then [u - 0x20]
  else if (0x41 ≤ u ∧ u ≤ 0x5a) ∨ (0x32 ≤ u ∧ u ≤ 0x37) then [u]
  else if u = 0x131 then js "I"
  else if u = 0x17f then js "S"
  else if u = 0xdf then js "SS"
  else if u = 0x149 then js "N"
  else if u = 0x1f0 then js "J"
  else if u = 0x1e96 then js "H"
  else if u = 0x1e97 then js "T"
  else if u = 0x1e98 then js "W"
  else if u = 0x1e99 then js "Y"
  else if u = 0x1e9a then js "A"
  else if u = 0xfb00 then js "FF"
  else if u = 0xfb01 then js "FI"
  else if u = 0xfb02 then js "FL"
  else if u = 0xfb03 then js "FFI"
  else if u = 0xfb04 then js "FFL"
  else if u = 0xfb05 ∨ u = 0xfb06 then js "ST"
  else []

/-- `s.toUpperCase().replace(/[^A-Z2-7]/g, '')`. -/
def base32Units (s : JsString) : JsString := s.flatMap upperUnit

/-- `B32.indexOf(c)`, of a letter or a digit from 2 to 7. -/
def base32Index (c : UInt16) : UInt32 :=
  if 0x41 ≤ c then c.toUInt32 - 0x41 else c.toUInt32 - 0x32 + 26

/-- The loop over the characters, with `bits` bits of `value` pending. -/
def decodeFrom (bits : Nat) (value : UInt32) : JsString → List UInt8
  | [] => []
  | c :: cs =>
    let value := value <<< 5 ||| base32Index c
    if 8 ≤ bits + 5 then
      (value >>> (bits + 5 - 8).toUInt32 &&& 0xff).toUInt8 :: decodeFrom (bits + 5 - 8) value cs
    else decodeFrom (bits + 5) value cs

def base32Decode (input : JsString) : List UInt8 := decodeFrom 0 0 (base32Units input)

def B32 : JsString := js "ABCDEFGHIJKLMNOPQRSTUVWXYZ234567"

/-- `B32[i]`, of an index that there is. -/
def base32Char (i : UInt32) : UInt16 := B32[i.toNat]?.getD 0

/-- The inner loop: as long as five bits are pending. What it writes, and how many bits it leaves. -/
def emit (value : UInt32) : Nat → JsString × Nat
  | bits + 5 => (base32Char (value >>> bits.toUInt32 &&& 31) :: (emit value bits).1, (emit value bits).2)
  | bits => ([], bits)

/-- The loop over the bytes, with `bits` bits of `value` pending. -/
def encodeFrom (bits : Nat) (value : UInt32) : List UInt8 → JsString
  | [] => if 0 < bits then [base32Char (value <<< (5 - bits).toUInt32 &&& 31)] else []
  | b :: bytes =>
    let value := value <<< 8 ||| b.toUInt32
    (emit value (bits + 8)).1 ++ encodeFrom (emit value (bits + 8)).2 value bytes

def base32Encode (bytes : List UInt8) : JsString := encodeFrom 0 0 bytes

/-! ## Back again -/

/-- The five bits that a character stands for. -/
def charBits (c : UInt16) : List Bool := bitsOf 5 (base32Index c).toNat

/-- A character of the alphabet. -/
def Letter (c : UInt16) : Prop := upperUnit c = [c] ∧ (base32Index c).toNat < 32

instance (c : UInt16) : Decidable (Letter c) := inferInstanceAs (Decidable (_ ∧ _))

/-- The alphabet, index by index. -/
theorem letter_base32Char : ∀ i < 32, Letter (B32[i]?.getD 0) ∧ (base32Index (B32[i]?.getD 0)).toNat = i := by
  decide

theorem charBits_base32Char {v : UInt32} : Letter (base32Char (v &&& 31)) ∧
    charBits (base32Char (v &&& 31)) = bitsOf 5 v.toNat := by
  have hmask : (v &&& 31).toNat = v.toNat % 32 := by
    rw [UInt32.toNat_and]
    exact Nat.and_two_pow_sub_one_eq_mod v.toNat 5
  obtain ⟨hletter, hindex⟩ := letter_base32Char (v &&& 31).toNat (by omega)
  refine ⟨hletter, ?_⟩
  rw [charBits, base32Char, hindex, hmask]
  exact bitsOf_congr fun i hi => by
    rw [show (32 : Nat) = 2 ^ 5 from rfl, Nat.testBit_mod_two_pow, decide_eq_true hi, Bool.true_and]

/-- One byte comes into the register of `base32Encode`. -/
theorem bits_byte {bits : Nat} (h : bits < 5) (value : UInt32) (b : UInt8) :
    bitsOf (bits + 8) (value <<< 8 ||| b.toUInt32).toNat = bitsOf bits value.toNat ++ byteBits b := by
  have hb : b.toUInt32.toNat < 2 ^ 8 := by
    rw [UInt8.toNat_toUInt32]
    exact b.toNat_lt
  rw [UInt32.toNat_or, UInt32.toNat_shiftLeft]
  exact bitsOf_shift 32 hb (by omega)

/-- One character comes into the register of `base32Decode`. -/
theorem bits_letter {bits : Nat} (h : bits < 8) (value : UInt32) {c : UInt16} (hc : Letter c) :
    bitsOf (bits + 5) (value <<< 5 ||| base32Index c).toNat = bitsOf bits value.toNat ++ charBits c := by
  rw [UInt32.toNat_or, UInt32.toNat_shiftLeft]
  exact bitsOf_shift 32 hc.2 (by omega)

theorem toNat_shiftRight {n : Nat} (h : n < 32) (value : UInt32) : (value >>> n.toUInt32).toNat = value.toNat >>> n := by
  have hn : (n.toUInt32).toNat = n := UInt32.toNat_ofNat_of_lt' (by show n < 2 ^ 32; omega)
  rw [UInt32.toNat_shiftRight, hn, Nat.mod_eq_of_lt h]

/-- What the inner loop writes, and what it leaves, are the bits that were pending. -/
theorem emit_bits {bits : Nat} (h : bits < 32) (value : UInt32) :
    (∀ c ∈ (emit value bits).1, Letter c) ∧ (emit value bits).2 < 5 ∧
      (emit value bits).1.flatMap charBits ++ bitsOf (emit value bits).2 value.toNat = bitsOf bits value.toNat := by
  fun_induction emit value bits with
  | case1 bits ih =>
    obtain ⟨hletters, hrest, hbits⟩ := ih (by omega)
    obtain ⟨hletter, hchar⟩ := @charBits_base32Char (value >>> bits.toUInt32)
    rw [toNat_shiftRight (by omega)] at hchar
    refine ⟨List.forall_mem_cons.mpr ⟨hletter, hletters⟩, hrest, ?_⟩
    have hsplit : bitsOf (bits + 5) value.toNat = bitsOf 5 (value.toNat >>> bits) ++ bitsOf bits value.toNat := by
      rw [Nat.add_comm, bitsOf_add]
    rw [List.flatMap_cons, List.append_assoc, hbits, hchar]
    exact hsplit.symm
  | case2 bits hbits =>
    refine ⟨by simp, ?_, rfl⟩
    by_contra hfive
    exact hbits (bits - 5) (by omega)

/-- **What is encoded**: the bits that are pending, those of the bytes, and zeros up to a full character. -/
theorem encodeFrom_bits {bits : Nat} (h : bits < 5) (value : UInt32) (bytes : List UInt8) :
    (∀ c ∈ encodeFrom bits value bytes, Letter c) ∧ ∃ zeros : List Bool, zeros.length < 5 ∧
      (encodeFrom bits value bytes).flatMap charBits =
        bitsOf bits value.toNat ++ bytes.flatMap byteBits ++ zeros := by
  induction bytes generalizing bits value with
  | nil =>
    rw [encodeFrom]
    by_cases hpos : 0 < bits
    · obtain ⟨hletter, hchar⟩ := @charBits_base32Char (value <<< (5 - bits).toUInt32)
      have hshift : ((5 - bits).toUInt32).toNat = 5 - bits := UInt32.toNat_ofNat_of_lt' (by show 5 - bits < 2 ^ 32; omega)
      have hzero := bitsOf_shift (m := bits) 32 (v := value.toNat) (Nat.two_pow_pos (5 - bits)) (by omega)
      rw [Nat.or_zero, Nat.add_sub_cancel' (by omega : bits ≤ 5)] at hzero
      rw [UInt32.toNat_shiftLeft, hshift, Nat.mod_eq_of_lt (by omega : 5 - bits < 32), hzero] at hchar
      rw [if_pos hpos]
      refine ⟨fun c hc => List.mem_singleton.mp hc ▸ hletter, bitsOf (5 - bits) 0, by rw [length_bitsOf]; omega, ?_⟩
      rw [List.flatMap_singleton, hchar, List.flatMap_nil, List.append_nil]
    · rw [if_neg hpos]
      refine ⟨by simp, [], by decide, ?_⟩
      rw [Nat.eq_zero_of_not_pos hpos]
      rfl
  | cons b bytes ih =>
    obtain ⟨hletters, hrest, hbits⟩ := @emit_bits (bits + 8) (by omega) (value <<< 8 ||| b.toUInt32)
    obtain ⟨hletters', zeros, hzeros, hbytes⟩ := ih hrest (value <<< 8 ||| b.toUInt32)
    rw [bits_byte h] at hbits
    rw [encodeFrom]
    refine ⟨fun c hc => (List.mem_append.mp hc).elim (hletters c) (hletters' c), zeros, hzeros, ?_⟩
    rw [List.flatMap_append, hbytes, List.flatMap_cons, ← List.append_assoc, ← List.append_assoc, hbits,
      List.append_assoc (bitsOf bits _)]

/-- **What is decoded**: the full bytes of the bits that are pending and those of the characters. -/
theorem decodeFrom_bits {bits : Nat} (h : bits < 8) (value : UInt32) {cs : JsString} (hcs : ∀ c ∈ cs, Letter c) :
    decodeFrom bits value cs = bytesOf (bitsOf bits value.toNat ++ cs.flatMap charBits) := by
  induction cs generalizing bits value with
  | nil =>
    rw [decodeFrom, List.flatMap_nil, List.append_nil, bytesOf_short (by rwa [length_bitsOf])]
  | cons c cs ih =>
    obtain ⟨hc, hcs⟩ := List.forall_mem_cons.mp hcs
    have hbits := bits_letter h value hc
    rw [decodeFrom, List.flatMap_cons, ← List.append_assoc, ← hbits]
    by_cases hfull : 8 ≤ bits + 5
    · rw [if_pos hfull, ih (by omega) _ hcs]
      generalize value <<< 5 ||| base32Index c = v
      have hbyte : byteBits (v >>> (bits + 5 - 8).toUInt32 &&& 255).toUInt8 = bitsOf 8 (v.toNat >>> (bits + 5 - 8)) := by
        have hmask : ∀ n : Nat, n &&& 255 = n % 2 ^ 8 := fun n => Nat.and_two_pow_sub_one_eq_mod n 8
        rw [byteBits, UInt32.toNat_toUInt8, UInt32.toNat_and, toNat_shiftRight (by omega)]
        refine bitsOf_congr fun i hi => ?_
        show ((v.toNat >>> (bits + 5 - 8) &&& 255) % 2 ^ 8).testBit i = _
        rw [hmask, Nat.mod_mod, Nat.testBit_mod_two_pow, decide_eq_true hi, Bool.true_and]
      have hsplit : bitsOf (bits + 5) v.toNat =
          bitsOf 8 (v.toNat >>> (bits + 5 - 8)) ++ bitsOf (bits + 5 - 8) v.toNat := by
        rw [← bitsOf_add]
        congr 1
        omega
      rw [hsplit, ← hbyte, List.append_assoc, bytesOf_byteBits]
    · rw [if_neg hfull, ih (by omega) _ hcs]

/-- The alphabet is neither changed nor dropped by `toUpperCase` and `replace`. -/
theorem base32Units_letters {cs : JsString} (hcs : ∀ c ∈ cs, Letter c) : base32Units cs = cs := by
  induction cs with
  | nil => rfl
  | cons c cs ih =>
    obtain ⟨hc, hcs⟩ := List.forall_mem_cons.mp hcs
    rw [base32Units, List.flatMap_cons, hc.1, ← base32Units, ih hcs]
    rfl

/-- **Bytes that are encoded are decoded again.** -/
theorem base32Decode_base32Encode (bytes : List UInt8) : base32Decode (base32Encode bytes) = bytes := by
  obtain ⟨hletters, zeros, hzeros, hbits⟩ := encodeFrom_bits (by decide : 0 < 5) 0 bytes
  rw [base32Decode, base32Encode, base32Units_letters hletters, decodeFrom_bits (by decide) 0 hletters, hbits]
  show bytesOf (bytes.flatMap byteBits ++ zeros) = bytes
  rw [bytesOf_flatMap, bytesOf_short (by omega), List.append_nil]

/-! ## Codes -/

/-- The algorithms `normaliseAlgorithm` accepts. -/
inductive Algorithm where
  | sha1
  | sha256
  | sha512

/-- `setUint32`: the low 32 bits of a number, the high byte first. -/
def uint32Bytes (n : Int) : List UInt8 :=
  let word := (n % 4294967296).toNat
  [(word / 16777216).toUInt8, (word / 65536 % 256).toUInt8, (word / 256 % 256).toUInt8, (word % 256).toUInt8]

/-- The counter in eight bytes: two 32-bit writes. -/
def counterBytes (counter : Int) : List UInt8 := uint32Bytes (counter / 4294967296) ++ uint32Bytes counter

/-- The 31 bits of a digest at the offset its last byte names; a byte that is not there counts as zero. -/
def truncated (digest : List UInt8) : UInt32 :=
  let offset := ((digest.getLast?.getD 0) &&& 0x0f).toNat
  let byte := fun i => (digest[offset + i]?.getD 0).toUInt32
  (byte 0 &&& 0x7f) <<< 24 ||| (byte 1 &&& 0xff) <<< 16 ||| (byte 2 &&& 0xff) <<< 8 ||| (byte 3 &&& 0xff)

variable (hmac : Algorithm → List UInt8 → List UInt8 → List UInt8)

/-- RFC 4226. -/
def hotp (secretBytes : List UInt8) (counter : Int) (algorithm : Algorithm) (digits : Nat) :
    Except JsString JsString :=
  if secretBytes = [] then .error (js "The secret is empty.")
  else if digits < 6 ∨ 8 < digits then .error (js "Digits must be between 6 and 8.")
  else
    .ok (padded digits ((truncated (hmac algorithm secretBytes (counterBytes counter))).toNat % 10 ^ digits))

/-- RFC 6238, with the options of the source: `{ algorithm, digits, period, atMs, t0 }`. -/
def totpWith (secret : JsString) (algorithm : Algorithm) (digits : Nat) (period atMs t0 : Int) :
    Except JsString JsString :=
  hotp hmac (base32Decode secret) ((atMs / 1000 - t0) / period) algorithm digits

/-- `totp(secret, { atMs })`: SHA-1, six digits, thirty seconds. -/
def totp (secret : JsString) (atMs : Int) : Except JsString JsString :=
  totpWith hmac secret .sha1 6 30 atMs 0

example : base32Decode (js "mzxw 6ytb") = [0x66, 0x6f, 0x6f, 0x62, 0x61] := by decide

/-! ## The standard -/

/-- The counter in eight bytes, the high-order byte first. -/
def movingFactor (counter : Nat) : List UInt8 := (LittleEndian.write 8 counter).reverse

/-- The 31 bits from the offset that the last four bits of a digest name. -/
def dynamicTruncation (digest : List UInt8) (h : 20 ≤ digest.length) : Nat :=
  let offset := (digest.getLast (List.ne_nil_of_length_pos (by omega))).toNat % 16
  let byte (i : Fin 4) : Nat := (digest.get ⟨offset + i, by omega⟩).toNat
  (byte 0 * 2 ^ 24 + byte 1 * 2 ^ 16 + byte 2 * 2 ^ 8 + byte 3) % 2 ^ 31

/-- The code of RFC 4226, for a digest of the moving factor: the number modulo a power of ten, with zeros before it. -/
def rfc4226 (digest : List UInt8) (h : 20 ≤ digest.length) (digits : Nat) : JsString :=
  padStart digits (natText (dynamicTruncation digest h % 10 ^ digits))

theorem counterBytes_eq (counter : Nat) : counterBytes counter = movingFactor counter := by
  have hword : ∀ n : Nat, ((n : Int) % 4294967296).toNat = n % 4294967296 := by
    intro n
    omega
  have hbyte : ∀ m n : Nat, m % 256 = n % 256 → m.toUInt8 = UInt8.ofNat n := by
    intro m n h
    exact UInt8.toNat_inj.mp (UInt8.toNat_ofNat'.trans (h.trans UInt8.toNat_ofNat'.symm))
  have hhigh : (counter : Int) / 4294967296 = ((counter / 4294967296 : Nat) : Int) := by omega
  rw [counterBytes, uint32Bytes, uint32Bytes, hhigh, hword, hword]
  simp only [movingFactor, LittleEndian.write, List.reverse_cons, List.reverse_nil, List.nil_append, List.cons_append,
    List.cons.injEq, and_true]
  refine ⟨?_, ?_, ?_, ?_, ?_, ?_, ?_, ?_⟩ <;> apply hbyte <;> omega

/-- Four bytes of which each is shifted to its place. -/
theorem or_bytes {a b c d : Nat} (hb : b < 256) (hc : c < 256) (hd : d < 256) :
    a <<< 24 ||| b <<< 16 ||| c <<< 8 ||| d = a * 2 ^ 24 + b * 2 ^ 16 + c * 2 ^ 8 + d := by
  have hab : a <<< 24 ||| b <<< 16 = (a * 2 ^ 8 + b) <<< 16 := by
    rw [← Nat.shiftLeft_add_eq_or_of_lt (by rw [Nat.shiftLeft_eq]; omega)]
    simp only [Nat.shiftLeft_eq]
    omega
  have habc : (a * 2 ^ 8 + b) <<< 16 ||| c <<< 8 = ((a * 2 ^ 8 + b) * 2 ^ 8 + c) <<< 8 := by
    rw [← Nat.shiftLeft_add_eq_or_of_lt (by rw [Nat.shiftLeft_eq]; omega)]
    simp only [Nat.shiftLeft_eq]
    omega
  rw [hab, habc, ← Nat.shiftLeft_add_eq_or_of_lt (by omega : d < 2 ^ 8), Nat.shiftLeft_eq]
  omega

theorem toNat_shift {v : UInt32} {n : Nat} (hn : n < 32) (hv : v.toNat < 2 ^ (32 - n)) :
    (v <<< n.toUInt32).toNat = v.toNat <<< n := by
  have hlt : v.toNat <<< n < 2 ^ 32 := by
    rw [Nat.shiftLeft_eq]
    calc v.toNat * 2 ^ n < 2 ^ (32 - n) * 2 ^ n := Nat.mul_lt_mul_of_pos_right hv (Nat.two_pow_pos n)
      _ = 2 ^ 32 := by rw [← Nat.pow_add]; congr 1; omega
  have hn' : (n.toUInt32).toNat = n := UInt32.toNat_ofNat_of_lt' (by show n < 2 ^ 32; omega)
  rw [UInt32.toNat_shiftLeft, hn', Nat.mod_eq_of_lt hn, Nat.mod_eq_of_lt hlt]

/-- The word that four bytes are put together to. -/
theorem toNat_word (b0 b1 b2 b3 : UInt8) :
    ((b0.toUInt32 &&& 0x7f) <<< 24 ||| (b1.toUInt32 &&& 0xff) <<< 16 ||| (b2.toUInt32 &&& 0xff) <<< 8 |||
      (b3.toUInt32 &&& 0xff)).toNat = (b0.toNat * 2 ^ 24 + b1.toNat * 2 ^ 16 + b2.toNat * 2 ^ 8 + b3.toNat) % 2 ^ 31 := by
  have hhead : (b0.toUInt32 &&& 0x7f).toNat = b0.toNat % 128 := by
    rw [UInt32.toNat_and]
    exact Nat.and_two_pow_sub_one_eq_mod _ 7
  have hbyte : ∀ b : UInt8, (b.toUInt32 &&& 0xff).toNat = b.toNat := by
    intro b
    rw [UInt32.toNat_and, UInt8.toNat_toUInt32]
    exact (Nat.and_two_pow_sub_one_eq_mod _ 8).trans (Nat.mod_eq_of_lt b.toNat_lt)
  have h1 := b1.toNat_lt
  have h2 := b2.toNat_lt
  have h3 := b3.toNat_lt
  have hs0 := @toNat_shift (b0.toUInt32 &&& 0x7f) 24 (by decide) (by rw [hhead]; omega)
  have hs1 := @toNat_shift (b1.toUInt32 &&& 0xff) 16 (by decide) (by rw [hbyte]; omega)
  have hs2 := @toNat_shift (b2.toUInt32 &&& 0xff) 8 (by decide) (by rw [hbyte]; omega)
  rw [hhead] at hs0
  rw [hbyte] at hs1 hs2
  rw [UInt32.toNat_or, UInt32.toNat_or, UInt32.toNat_or]
  refine Eq.trans (congrArg₂ _ (congrArg₂ _ (congrArg₂ _ hs0 hs1) hs2) (hbyte b3)) ?_
  refine (or_bytes h1 h2 h3).trans ?_
  omega

/-- **What is cut out of a digest** is the number of the standard; its highest bit is masked, so it has no sign. -/
theorem truncated_eq {digest : List UInt8} (h : 20 ≤ digest.length) :
    (truncated digest).toNat = dynamicTruncation digest h := by
  have hne : digest ≠ [] := List.ne_nil_of_length_pos (by omega)
  have hlow : ((digest.getLast hne) &&& 0x0f).toNat = (digest.getLast hne).toNat % 16 := by
    rw [UInt8.toNat_and]
    exact Nat.and_two_pow_sub_one_eq_mod _ 4
  have hbyte : ∀ (i : Nat) (hi : (digest.getLast hne).toNat % 16 + i < digest.length),
      digest[(digest.getLast hne).toNat % 16 + i]?.getD 0 = digest.get ⟨(digest.getLast hne).toNat % 16 + i, hi⟩ := by
    intro i hi
    rw [List.getElem?_eq_getElem hi]
    rfl
  unfold truncated dynamicTruncation
  simp only [List.getLast?_eq_some_getLast hne, Option.getD_some, hlow]
  rw [hbyte 0 (by omega), hbyte 1 (by omega), hbyte 2 (by omega), hbyte 3 (by omega), toNat_word]
  rfl

/-- **The code is that of the standard**, for every secret that is not empty. -/
theorem hotp_eq_rfc4226 (hlong : ∀ algorithm key message, 20 ≤ (hmac algorithm key message).length)
    (algorithm : Algorithm) {secretBytes : List UInt8} (hsecret : secretBytes ≠ []) (counter : Nat) {digits : Nat}
    (hdigits : 6 ≤ digits ∧ digits ≤ 8) :
    hotp hmac secretBytes counter algorithm digits =
        .ok (rfc4226 (hmac algorithm secretBytes (movingFactor counter)) (hlong _ _ _) digits) ∧
      (rfc4226 (hmac algorithm secretBytes (movingFactor counter)) (hlong _ _ _) digits).length = digits := by
  obtain ⟨k, rfl⟩ : ∃ k, digits = k + 1 := ⟨digits - 1, by omega⟩
  have hpadded := padded_eq_padStart k
    (dynamicTruncation (hmac algorithm secretBytes (movingFactor counter)) (hlong _ _ _) % 10 ^ (k + 1))
    (Nat.mod_lt _ (Nat.pow_pos (by decide)))
  rw [hotp, if_neg hsecret, if_neg (by omega), counterBytes_eq, truncated_eq (hlong _ _ _), rfc4226, ← hpadded]
  exact ⟨rfl, length_padded _ _⟩

/-- HMAC-SHA-1 of the counter zero under the secret `12345678901234567890`. -/
def publishedDigest : List UInt8 :=
  [0xcc, 0x93, 0xcf, 0x18, 0x50, 0x8d, 0x94, 0x93, 0x4c, 0x64, 0xb6, 0x5d, 0x8b, 0xa7, 0x66, 0x7f, 0xb7, 0xcd, 0xe4, 0xb0]

def publishedSecret : List UInt8 := (js "12345678901234567890").map UInt16.toUInt8

/-- The first published code. -/
theorem hotp_eq_rfc4226_first :
    hotp (fun _ _ _ => publishedDigest) publishedSecret (0 : Nat) .sha1 6 = .ok (js "755224") := by
  have hlong : 20 ≤ publishedDigest.length := by decide
  have hnumber : dynamicTruncation publishedDigest (by decide) % 10 ^ 6 = 755224 := by decide
  have hcode := (hotp_eq_rfc4226 (fun _ _ _ => publishedDigest) (fun _ _ _ => hlong) .sha1
    (by decide : publishedSecret ≠ []) 0 (by decide : 6 ≤ 6 ∧ 6 ≤ 8)).1
  rw [rfc4226, hnumber] at hcode
  exact hcode

/-- **An empty secret has no code**, though it has an HMAC. -/
theorem hotp_empty : ¬∀ (hmac : Algorithm → List UInt8 → List UInt8 → List UInt8)
    (hlong : ∀ algorithm key message, 20 ≤ (hmac algorithm key message).length) (algorithm : Algorithm)
    (secretBytes : List UInt8) (counter digits : Nat), counter < 2 ^ 53 → 6 ≤ digits ∧ digits ≤ 8 →
      hotp hmac secretBytes counter algorithm digits =
        .ok (rfc4226 (hmac algorithm secretBytes (movingFactor counter)) (hlong _ _ _) digits) := by
  intro h
  have hlong : 20 ≤ publishedDigest.length := by decide
  have hcode := h (fun _ _ _ => publishedDigest) (fun _ _ _ => hlong) .sha1 [] 0 6 (by decide) (by decide)
  rw [hotp, if_pos rfl] at hcode
  cases hcode

end Totp
end MaterialOpenWebui
