import Mathlib.Data.List.Forall2
import Mathlib.Tactic.SplitIfs
import MiniScheme.Text.Utf8

/-!
# Decoding is exact

The decoder accepts exactly the encodings of texts, and reads them back. Where it fails it says how
far the bytes are a text, and whether they end too early: then there are bytes that would complete
them, and otherwise there are none.

A character is a first byte and bytes that follow it, each in its range. `Shape` says which they
are, in numbers; the ranges of the decoder and the bytes of the encoder are both held against it.
All else is about lists: no encoding of a character is the start of another one, so a text can be
taken off the front of any bytes.

## Results

* `utf8EncodeChar_assemble`, `assemble_utf8EncodeChar`: one character.
* `decode_eq_ok_iff`: the texts.
* `explains_of_decode`: what a fault says.
* `zero_mem_encode`: where zero bytes come from.
-/

namespace MiniScheme.Utf8

variable {b : UInt8} {bs bytes : List UInt8} {cs : List Char}

/-! ## One character -/

/-- The byte may follow a first byte. -/
def Continues (b : UInt8) : Prop := 128 ≤ b.toNat ∧ b.toNat ≤ 191

/-- A first byte and the bytes after it that make a character. A second byte is not as low as to
make a shorter character longer, it makes no surrogate and nothing above U+10FFFF. -/
inductive Shape : UInt8 → List UInt8 → Prop
  | one {b : UInt8} (hb : b.toNat < 128) : Shape b []
  | two {b c : UInt8} (hb : 194 ≤ b.toNat ∧ b.toNat < 224) (hc : Continues c) : Shape b [c]
  | three {b c d : UInt8} (hb : 224 ≤ b.toNat ∧ b.toNat < 240) (hc : Continues c)
      (hd : Continues d) (hlow : b.toNat = 224 → 160 ≤ c.toNat)
      (hsurrogate : b.toNat = 237 → c.toNat ≤ 159) : Shape b [c, d]
  | four {b c d e : UInt8} (hb : 240 ≤ b.toNat ∧ b.toNat ≤ 244) (hc : Continues c)
      (hd : Continues d) (he : Continues e) (hlow : b.toNat = 240 → 144 ≤ c.toNat)
      (hhigh : b.toNat = 244 → c.toNat ≤ 143) : Shape b [c, d, e]

/-- Each byte lies in its range. -/
abbrev InRanges : List UInt8 → List (UInt8 × UInt8) → Prop :=
  List.Forall₂ fun b r => r.1 ≤ b ∧ b ≤ r.2

theorem shape_of_followers {ranges : List (UInt8 × UInt8)} (hb : followers b = some ranges)
    (hbs : InRanges bs ranges) : Shape b bs := by
  unfold followers at hb
  simp only [UInt8.lt_iff_toNat_lt, ← UInt8.toNat_inj, UInt8.reduceToNat] at hb
  split_ifs at hb with h₁ h₂ h₃ h₄ h₅ h₆ h₇ h₈ h₉ <;> cases hb
  · cases hbs
    exact .one h₁
  · obtain _ | ⟨hc, _ | _⟩ := hbs
    exact .two (by omega) hc
  · obtain _ | ⟨⟨hlow, hc⟩, _ | ⟨hd, _ | _⟩⟩ := hbs
    have hlow : 160 ≤ _ := UInt8.le_iff_toNat_le.1 hlow
    exact .three (by omega) ⟨by omega, hc⟩ hd (fun _ => hlow) (by omega)
  · obtain _ | ⟨⟨hc, hhigh⟩, _ | ⟨hd, _ | _⟩⟩ := hbs
    have hhigh : _ ≤ 159 := UInt8.le_iff_toNat_le.1 hhigh
    exact .three (by omega) ⟨hc, by omega⟩ hd (by omega) (fun _ => hhigh)
  · obtain _ | ⟨hc, _ | ⟨hd, _ | _⟩⟩ := hbs
    exact .three (by omega) hc hd (by omega) (by omega)
  · obtain _ | ⟨⟨hlow, hc⟩, _ | ⟨hd, _ | ⟨he, _ | _⟩⟩⟩ := hbs
    have hlow : 144 ≤ _ := UInt8.le_iff_toNat_le.1 hlow
    exact .four (by omega) ⟨by omega, hc⟩ hd he (fun _ => hlow) (by omega)
  · obtain _ | ⟨hc, _ | ⟨hd, _ | ⟨he, _ | _⟩⟩⟩ := hbs
    exact .four (by omega) hc hd he (by omega) (by omega)
  · obtain _ | ⟨⟨hc, hhigh⟩, _ | ⟨hd, _ | ⟨he, _ | _⟩⟩⟩ := hbs
    have hhigh : _ ≤ 143 := UInt8.le_iff_toNat_le.1 hhigh
    exact .four (by omega) ⟨hc, by omega⟩ hd he (by omega) (fun _ => hhigh)

theorem followers_of_shape (h : Shape b bs) :
    ∃ ranges, followers b = some ranges ∧ InRanges bs ranges := by
  unfold followers
  simp only [UInt8.lt_iff_toNat_lt, ← UInt8.toNat_inj, UInt8.reduceToNat]
  cases h with
  | one hb => exact ⟨_, if_pos hb, .nil⟩
  | two hb hc =>
    rw [if_neg (by omega), if_neg (by omega), if_pos (by omega)]
    exact ⟨_, rfl, .cons hc .nil⟩
  | three hb hc hd hlow hsurrogate =>
    rw [if_neg (by omega), if_neg (by omega), if_neg (by omega)]
    by_cases h₁ : b.toNat = 224
    · rw [if_pos h₁]
      exact ⟨_, rfl, .cons ⟨hlow h₁, hc.2⟩ (.cons hd .nil)⟩
    by_cases h₂ : b.toNat = 237
    · rw [if_neg h₁, if_pos h₂]
      exact ⟨_, rfl, .cons ⟨hc.1, hsurrogate h₂⟩ (.cons hd .nil)⟩
    · rw [if_neg h₁, if_neg h₂, if_pos hb.2]
      exact ⟨_, rfl, .cons hc (.cons hd .nil)⟩
  | four hb hc hd he hlow hhigh =>
    rw [if_neg (by omega), if_neg (by omega), if_neg (by omega), if_neg (by omega),
      if_neg (by omega), if_neg (by omega)]
    by_cases h₁ : b.toNat = 240
    · rw [if_pos h₁]
      exact ⟨_, rfl, .cons ⟨hlow h₁, hc.2⟩ (.cons hd (.cons he .nil))⟩
    by_cases h₂ : b.toNat = 244
    · rw [if_neg h₁, if_neg (by omega), if_pos h₂]
      exact ⟨_, rfl, .cons ⟨hc.1, hhigh h₂⟩ (.cons hd (.cons he .nil))⟩
    · rw [if_neg h₁, if_pos (by omega)]
      exact ⟨_, rfl, .cons hc (.cons hd (.cons he .nil))⟩

theorem val_ofNat {n : Nat} (h : n.isValidChar) : (Char.ofNat n).val.toNat = n := by
  rw [Char.ofNat, dif_pos h]
  rfl

theorem uint8_ofNat_eq {n : Nat} (h : n = b.toNat) : UInt8.ofNat n = b := by
  rw [h, UInt8.ofNat_toNat]

/-- The bytes of a character are encoded as they are. -/
theorem utf8EncodeChar_assemble (h : Shape b bs) :
    String.utf8EncodeChar (assemble b bs) = b :: bs := by
  unfold String.utf8EncodeChar
  cases h with
  | one hb =>
    have hn := val_ofNat (n := b.toNat) (by omega)
    simp only [assemble, List.foldl_nil, leadBits, List.length_nil, if_true, hn]
    rw [if_pos (by omega), UInt8.ofNat_toNat]
  | @two c hb hc =>
    obtain ⟨hc, hc'⟩ := hc
    have hn := val_ofNat (n := b.toNat % 32 * 64 + c.toNat % 64) (by omega)
    simp only [show assemble b [c] = Char.ofNat (b.toNat % 32 * 64 + c.toNat % 64) from rfl, hn]
    rw [if_neg (by omega), if_pos (by omega), uint8_ofNat_eq (b := b) (by omega),
      uint8_ofNat_eq (b := c) (by omega)]
  | @three c d hb hc hd hlow hsurrogate =>
    obtain ⟨hc, hc'⟩ := hc
    obtain ⟨hd, hd'⟩ := hd
    have hn := val_ofNat (n := (b.toNat % 16 * 64 + c.toNat % 64) * 64 + d.toNat % 64) (by omega)
    simp only [show assemble b [c, d] =
      Char.ofNat ((b.toNat % 16 * 64 + c.toNat % 64) * 64 + d.toNat % 64) from rfl, hn]
    rw [if_neg (by omega), if_neg (by omega), if_pos (by omega), uint8_ofNat_eq (b := b) (by omega),
      uint8_ofNat_eq (b := c) (by omega), uint8_ofNat_eq (b := d) (by omega)]
  | @four c d e hb hc hd he hlow hhigh =>
    obtain ⟨hc, hc'⟩ := hc
    obtain ⟨hd, hd'⟩ := hd
    obtain ⟨he, he'⟩ := he
    have hn := val_ofNat
      (n := ((b.toNat % 8 * 64 + c.toNat % 64) * 64 + d.toNat % 64) * 64 + e.toNat % 64) (by omega)
    simp only [show assemble b [c, d, e] = Char.ofNat
      (((b.toNat % 8 * 64 + c.toNat % 64) * 64 + d.toNat % 64) * 64 + e.toNat % 64) from rfl, hn]
    rw [if_neg (by omega), if_neg (by omega), if_neg (by omega), uint8_ofNat_eq (b := b) (by omega),
      uint8_ofNat_eq (b := c) (by omega), uint8_ofNat_eq (b := d) (by omega),
      uint8_ofNat_eq (b := e) (by omega)]

/-- Every character has a shape. -/
theorem shape_of_utf8EncodeChar (c : Char) :
    ∃ b bs, String.utf8EncodeChar c = b :: bs ∧ Shape b bs := by
  have hvalid : c.val.toNat < 55296 ∨ 57343 < c.val.toNat ∧ c.val.toNat < 1114112 := c.valid
  unfold String.utf8EncodeChar
  generalize c.val.toNat = n at hvalid
  dsimp only
  have hbyte (k : Nat) (hk : k < 256) : (UInt8.ofNat k).toNat = k := by
    rw [UInt8.toNat_ofNat', Nat.mod_eq_of_lt hk]
  have hrest (k : Nat) : Continues (UInt8.ofNat (k % 64 + 128)) := by
    rw [Continues, hbyte _ (by omega)]
    omega
  by_cases h₁ : n ≤ 127
  · refine ⟨_, _, if_pos h₁, .one ?_⟩
    rw [hbyte _ (by omega)]
    omega
  by_cases h₂ : n ≤ 2047
  · refine ⟨_, _, by rw [if_neg h₁, if_pos h₂], .two ?_ (hrest n)⟩
    rw [hbyte _ (by omega)]
    omega
  by_cases h₃ : n ≤ 65535
  · refine ⟨_, _, by rw [if_neg h₁, if_neg h₂, if_pos h₃], .three ?_ (hrest _) (hrest n) ?_ ?_⟩ <;>
      rw [hbyte _ (by omega)] <;> try rw [hbyte _ (by omega)]
    all_goals omega
  · refine ⟨_, _, by rw [if_neg h₁, if_neg h₂, if_neg h₃],
      .four ?_ (hrest _) (hrest _) (hrest n) ?_ ?_⟩ <;>
      rw [hbyte _ (by omega)] <;> try rw [hbyte _ (by omega)]
    all_goals omega

/-- No two characters have the same bytes. -/
theorem utf8EncodeChar_injective : Function.Injective String.utf8EncodeChar := by
  intro c d h
  have hc := ByteArray.utf8DecodeChar?_utf8EncodeChar_append (b := .empty) (c := c)
  rw [h, ByteArray.utf8DecodeChar?_utf8EncodeChar_append] at hc
  exact (Option.some.inj hc).symm

/-- A character is read from its own bytes. -/
theorem assemble_utf8EncodeChar (c : Char) :
    ∃ b bs, String.utf8EncodeChar c = b :: bs ∧ Shape b bs ∧ assemble b bs = c := by
  obtain ⟨b, bs, hc, hshape⟩ := shape_of_utf8EncodeChar c
  have hbytes := (utf8EncodeChar_assemble hshape).trans hc.symm
  exact ⟨b, bs, hc, hshape, utf8EncodeChar_injective hbytes⟩

/-! ## The ranges of the bytes that follow -/

section

variable {ranges : List (UInt8 × UInt8)}

theorem matching_le_length (ranges : List (UInt8 × UInt8)) (bs : List UInt8) :
    matching ranges bs ≤ ranges.length ∧ matching ranges bs ≤ bs.length := by
  fun_induction matching ranges bs with
  | case1 => simp_all
  | case2 => simp
  | case3 => simp

/-- The bytes that were counted lie in their ranges. -/
theorem inRanges_matching (ranges : List (UInt8 × UInt8)) (bs : List UInt8) :
    InRanges (bs.take (matching ranges bs)) (ranges.take (matching ranges bs)) := by
  fun_induction matching ranges bs with
  | case1 r rs b bs h ih => exact .cons h ih
  | case2 => exact .nil
  | case3 => exact .nil

/-- Bytes that lie in their ranges are counted. -/
theorem matching_append (h : InRanges bs ranges) (rest : List UInt8) :
    matching ranges (bs ++ rest) = ranges.length := by
  induction h with
  | nil => rfl
  | cons h _ ih => rw [List.cons_append, matching, if_pos h, ih, List.length_cons]

/-- The count ends at the first byte outside its range, whatever comes after it. -/
theorem matching_take_append {n : Nat} (hranges : matching ranges bs ≠ ranges.length)
    (hbs : matching ranges bs ≠ bs.length) (hn : matching ranges bs < n) (more : List UInt8) :
    matching ranges (bs.take n ++ more) = matching ranges bs := by
  induction ranges generalizing bs n with
  | nil => cases bs <;> exact absurd rfl hranges
  | cons r ranges ih =>
    match bs, n with
    | [], _ => exact absurd rfl hbs
    | b :: bs, 0 => cases hn
    | b :: bs, n + 1 =>
      rw [List.take_succ_cons, List.cons_append]
      unfold matching at hranges hbs hn ⊢
      by_cases h : r.1 ≤ b ∧ b ≤ r.2
      · simp only [if_pos h, List.length_cons, ne_eq, Nat.add_right_cancel_iff,
          Nat.add_lt_add_iff_right] at hranges hbs hn ⊢
        exact ih hranges hbs hn
      · rw [if_neg h, if_neg h]

/-- No range is empty. -/
theorem le_of_mem_followers (h : followers b = some ranges) : ∀ r ∈ ranges, r.1 ≤ r.2 := by
  unfold followers at h
  split_ifs at h <;> cases h <;> simp

end

/-! ## Texts -/

theorem encode_cons (c : Char) (cs : List Char) :
    encode (c :: cs) = String.utf8EncodeChar c ++ encode cs := List.flatMap_cons

theorem encode_append (cs ds : List Char) : encode (cs ++ ds) = encode cs ++ encode ds :=
  List.flatMap_append

theorem decodeFrom_shape (h : Shape b bs) (index : Nat) (rest : List UInt8) :
    decodeFrom index (b :: bs ++ rest) =
      (decodeFrom (index + (bs.length + 1)) rest).map (assemble b bs :: ·) := by
  obtain ⟨ranges, hb, hbs⟩ := followers_of_shape h
  have hlength := hbs.length_eq
  rw [List.cons_append, decodeFrom]
  simp only [hb, matching_append hbs, if_true]
  rw [← hlength, List.drop_left, List.take_left, Nat.add_assoc, Nat.add_comm 1]

/-- **A text is read off the front** of any bytes. -/
theorem decodeFrom_encode_append (cs : List Char) (index : Nat) (rest : List UInt8) :
    decodeFrom index (encode cs ++ rest) =
      (decodeFrom (index + (encode cs).length) rest).map (cs ++ ·) := by
  induction cs generalizing index with
  | nil =>
    change decodeFrom index rest = (decodeFrom index rest).map id
    cases decodeFrom index rest <;> rfl
  | cons c cs ih =>
    obtain ⟨b, bs, hc, hshape, hassemble⟩ := assemble_utf8EncodeChar c
    rw [encode_cons, hc, List.append_assoc, decodeFrom_shape hshape, ih, hassemble,
      List.length_append, List.length_cons, Nat.add_assoc]
    cases decodeFrom (index + (bs.length + 1 + (encode cs).length)) rest <;> rfl

/-- The bytes in which no further character can be read, with the fault that is found at `index`. -/
inductive Stuck (index : Nat) : List UInt8 → Fault → Prop
  | first {b : UInt8} {bs : List UInt8} (hb : followers b = none) :
      Stuck index (b :: bs) (.invalid 1 index)
  | incomplete {b : UInt8} {bs : List UInt8} {ranges : List (UInt8 × UInt8)}
      (hb : followers b = some ranges) (hranges : matching ranges bs ≠ ranges.length)
      (hbs : matching ranges bs = bs.length) : Stuck index (b :: bs) (.incomplete index)
  | invalid {b : UInt8} {bs : List UInt8} {ranges : List (UInt8 × UInt8)}
      (hb : followers b = some ranges) (hranges : matching ranges bs ≠ ranges.length)
      (hbs : matching ranges bs ≠ bs.length) :
      Stuck index (b :: bs) (.invalid (matching ranges bs + 1) index)

theorem Stuck.decodeFrom {index : Nat} {fault : Fault} (h : Stuck index bytes fault) :
    Utf8.decodeFrom index bytes = .error fault := by
  cases h with
  | first hb => rw [Utf8.decodeFrom, hb]
  | incomplete hb hranges hbs =>
    rw [Utf8.decodeFrom, hb]
    dsimp only
    rw [if_neg hranges, if_pos hbs]
  | invalid hb hranges hbs =>
    rw [Utf8.decodeFrom, hb]
    dsimp only
    rw [if_neg hranges, if_neg hbs]

/-- **Any bytes** are a text, or a text and something in which no further character can be read. -/
theorem exists_text (index : Nat) (bytes : List UInt8) :
    ∃ cs rest, bytes = encode cs ++ rest ∧
      (rest = [] ∨ ∃ fault, Stuck (index + (encode cs).length) rest fault) := by
  fun_induction decodeFrom index bytes with
  | case1 => exact ⟨[], [], rfl, .inl rfl⟩
  | case2 index b bs hb => exact ⟨[], b :: bs, rfl, .inr ⟨_, .first hb⟩⟩
  | case3 index b bs ranges hb n hn ih =>
    obtain ⟨cs, rest, hrest, hend⟩ := ih
    have hbs := inRanges_matching ranges bs
    rw [show matching ranges bs = n from rfl, hn, List.take_length] at hbs
    have hchar := utf8EncodeChar_assemble (shape_of_followers hb hbs)
    rw [← hn] at hchar
    refine ⟨assemble b (bs.take n) :: cs, rest, ?_, ?_⟩
    · rw [encode_cons, hchar, List.append_assoc, ← hrest, List.cons_append, List.take_append_drop]
    · have hlength : (encode (assemble b (bs.take n) :: cs)).length =
          1 + n + (encode cs).length := by
        have hle := (matching_le_length ranges bs).2
        rw [encode_cons, hchar, List.length_append, List.length_cons, List.length_take,
          Nat.min_eq_left hle, Nat.add_comm 1]
      rw [hlength, ← Nat.add_assoc, ← Nat.add_assoc]
      exact hend
  | case4 index b bs ranges hb n hn hbs =>
    exact ⟨[], b :: bs, rfl, .inr ⟨_, .incomplete hb hn hbs⟩⟩
  | case5 index b bs ranges hb n hn hbs =>
    exact ⟨[], b :: bs, rfl, .inr ⟨_, .invalid hb hn hbs⟩⟩

/-- A text is read from its own bytes. -/
theorem decode_encode (cs : List Char) : decode (encode cs) = .ok cs := by
  have h := decodeFrom_encode_append cs 0 []
  rwa [List.append_nil, decodeFrom, Except.map, List.append_nil] at h

/-- **The decoder reads texts**, each from its own bytes and from no others. -/
theorem decode_eq_ok_iff : decode bytes = .ok cs ↔ bytes = encode cs := by
  constructor
  · intro h
    obtain ⟨ds, rest, rfl, rfl | ⟨fault, hstuck⟩⟩ := exists_text 0 bytes
    · rw [List.append_nil, decode_encode] at h
      rw [List.append_nil, Except.ok.inj h]
    · rw [decode, decodeFrom_encode_append, hstuck.decodeFrom] at h
      cases h
  · rintro rfl
    exact decode_encode cs

/-- Only the zero character has a zero byte. -/
theorem zero_mem_utf8EncodeChar {c : Char} : 0 ∈ String.utf8EncodeChar c ↔ c = '\x00' := by
  constructor
  · intro hmem
    obtain ⟨b, bs, hbytes, hshape, rfl⟩ := assemble_utf8EncodeChar c
    rw [hbytes] at hmem
    have hrest {d : UInt8} (hd : Continues d) : 0 ≠ d := by
      rintro rfl
      exact absurd hd.1 (by decide)
    have hfirst (hb : 128 ≤ b.toNat) : 0 ≠ b := by
      rintro rfl
      exact absurd hb (by decide)
    cases hshape with
    | one =>
      obtain rfl : 0 = b := by simpa using hmem
      rfl
    | two hb hc => simp [hfirst (by omega), hrest hc] at hmem
    | three hb hc hd => simp [hfirst (by omega), hrest hc, hrest hd] at hmem
    | four hb hc hd he => simp [hfirst (by omega), hrest hc, hrest hd, hrest he] at hmem
  · rintro rfl
    decide

theorem zero_mem_encode : 0 ∈ encode cs ↔ '\x00' ∈ cs := by
  simp [encode, List.mem_flatMap, zero_mem_utf8EncodeChar]

/-! ## Faults -/

/-- The index from which on the bytes are no text. -/
def Fault.index : Fault → Nat
  | invalid _ index | incomplete index => index

/-- The bytes are the start of some text. -/
def Completable (bytes : List UInt8) : Prop := ∃ more cs, bytes ++ more = encode cs

/-- What a fault says of the bytes: how long their longest part from the start is that is a text,
whether they could be completed to a text, and if not, how many bytes from there on could. -/
structure Explains (bytes : List UInt8) (fault : Fault) : Prop where
  isText : ∃ cs, bytes.take fault.index = encode cs
  longest : ∀ {n cs}, n ≤ bytes.length → bytes.take n = encode cs → n ≤ fault.index
  completable_iff : Completable bytes ↔ ∃ index, fault = .incomplete index
  length : ∀ {length index}, fault = .invalid length index →
    (length = 1 ∨ Completable (bytes.take (index + length))) ∧
      ∀ n, Completable (bytes.take (index + n)) → n ≤ length

theorem Stuck.index_eq {index : Nat} {fault : Fault} (h : Stuck index bytes fault) :
    fault.index = index := by
  cases h <;> rfl

/-- Every fault comes from bytes in which no further character can be read. -/
theorem stuck_of_decodeFrom {index : Nat} {fault : Fault}
    (h : decodeFrom index bytes = .error fault) :
    ∃ cs rest, bytes = encode cs ++ rest ∧ Stuck (index + (encode cs).length) rest fault := by
  obtain ⟨cs, rest, rfl, hrest⟩ := exists_text index bytes
  rw [decodeFrom_encode_append] at h
  refine ⟨cs, rest, rfl, ?_⟩
  rcases hrest with rfl | ⟨fault', hstuck⟩
  · rw [decodeFrom] at h
    cases h
  · rw [hstuck.decodeFrom] at h
    cases h
    exact hstuck

/-- Once a byte does not fit, nothing that follows makes up for it. -/
theorem Stuck.take_append {index length index' n : Nat}
    (h : Stuck index bytes (.invalid length index')) (hn : length < n) (more : List UInt8) :
    Stuck index (bytes.take n ++ more) (.invalid length index') := by
  obtain ⟨n, rfl⟩ : ∃ k, n = k + 1 := ⟨n - 1, by omega⟩
  cases h with
  | first hb => exact .first hb
  | @invalid b bs ranges hb hranges hbs =>
    have hmatching := matching_take_append hranges hbs (Nat.lt_of_succ_lt_succ hn) more
    have hle := (matching_le_length ranges bs).2
    rw [List.take_succ_cons, List.cons_append, ← hmatching]
    refine .invalid hb (hmatching ▸ hranges) ?_
    rw [hmatching, List.length_append, List.length_take]
    omega

theorem Stuck.not_completable {length index n : Nat}
    (h : Stuck (encode cs).length bytes (.invalid length index)) (hn : length < n) :
    ¬Completable (encode cs ++ bytes.take n) := by
  rintro ⟨more, ds, heq⟩
  have herror := decodeFrom_encode_append cs 0 (bytes.take n ++ more)
  rw [Nat.zero_add, (h.take_append hn more).decodeFrom, ← List.append_assoc, heq, ← decode,
    decode_encode] at herror
  cases herror

/-- A first byte and bytes in the first of its ranges can be completed. -/
theorem completable_of_inRanges {ranges : List (UInt8 × UInt8)} {n : Nat}
    (hb : followers b = some ranges) (hbs : InRanges bs (ranges.take n)) (cs : List Char) :
    Completable (encode cs ++ b :: bs) := by
  have hlow : InRanges ((ranges.drop n).map Prod.fst) (ranges.drop n) := by
    rw [InRanges, List.forall₂_map_left_iff, List.forall₂_same]
    intro r hr
    exact ⟨UInt8.le_refl _, le_of_mem_followers hb r (List.mem_of_mem_drop hr)⟩
  have hall : InRanges (bs ++ (ranges.drop n).map Prod.fst) ranges := by
    have hall : InRanges _ (ranges.take n ++ ranges.drop n) := List.rel_append hbs hlow
    rwa [List.take_append_drop] at hall
  refine ⟨(ranges.drop n).map Prod.fst, cs ++ [assemble b (bs ++ (ranges.drop n).map Prod.fst)], ?_⟩
  rw [encode_append, encode_cons, utf8EncodeChar_assemble (shape_of_followers hb hall)]
  simp [encode]

/-- **A fault says what is the matter.** -/
theorem explains_of_decode {fault : Fault} (h : decode bytes = .error fault) :
    Explains bytes fault := by
  obtain ⟨cs, rest, rfl, hstuck⟩ := stuck_of_decodeFrom h
  rw [Nat.zero_add] at hstuck
  have hindex := hstuck.index_eq
  have htake (n : Nat) :
      (encode cs ++ rest).take ((encode cs).length + n) = encode cs ++ rest.take n :=
    List.take_length_add_append n
  refine ⟨⟨cs, by rw [hindex, List.take_left]⟩, ?_, ?_, ?_⟩
  · -- a longer text would have been read off the front
    intro n ds hn hds
    have hlength := congrArg List.length hds
    rw [List.length_take, Nat.min_eq_left hn] at hlength
    rw [← List.take_append_drop n (encode cs ++ rest), hds, decode, decodeFrom_encode_append,
      Nat.zero_add, ← hlength] at h
    have herror : decodeFrom n ((encode cs ++ rest).drop n) = .error fault := by
      revert h
      cases decodeFrom n ((encode cs ++ rest).drop n) with
      | ok => exact nofun
      | error => exact id
    obtain ⟨es, rest', -, hstuck'⟩ := stuck_of_decodeFrom herror
    rw [hstuck'.index_eq]
    omega
  · constructor
    · intro hcompletable
      cases fault with
      | incomplete index => exact ⟨index, rfl⟩
      | invalid length index =>
        have hnot := hstuck.not_completable (n := rest.length + length + 1) (by omega)
        rw [List.take_of_length_le (by omega)] at hnot
        exact absurd hcompletable hnot
    · rintro ⟨index, rfl⟩
      cases hstuck with
      | @incomplete b bs ranges hb hranges hbs =>
        have hmatching := inRanges_matching ranges bs
        rw [hbs, List.take_length] at hmatching
        exact completable_of_inRanges hb hmatching cs
  · rintro length index rfl
    rw [show index = (encode cs).length from hindex]
    refine ⟨?_, fun n hn => ?_⟩
    · rw [htake]
      cases hstuck with
      | first => exact .inl rfl
      | @invalid b bs ranges hb hranges hbs =>
        rw [List.take_succ_cons]
        exact .inr (completable_of_inRanges hb (inRanges_matching ranges bs) cs)
    · by_contra hlt
      rw [htake] at hn
      exact hstuck.not_completable (Nat.lt_of_not_le hlt) hn

end MiniScheme.Utf8
