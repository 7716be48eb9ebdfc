/-
Numeric literals of KQuery: `ParserImpl::ParseNumberToken` in `lib/Expr/Parser.cpp`.

The value of a literal is computed in as many bits as its digits can need, negated there, and
brought to the target width after that. So a negative number that has to be extended has zeros
where its sign should be: `parseNumberToken_iff`.

`unsigned` arithmetic is modulo 2^32. There is no result where an assertion of `APInt` fails,
whose integers have at least one bit.
-/
import Xklee.Data.APInt
import Xklee.Data.Partial
import Xklee.Expr.Lexer

set_option autoImplicit false

namespace Xklee

open Lexer (peekNextChar IsNumber)

namespace ParserImpl

/-! ## The parser -/

/-- What is known of a token after its sign and its prefix have been looked at. -/
structure NumberForm where
  HasMinus : Bool
  Radix : ℕ
  RadixBits : ℕ
  prefixed : Bool
  S : List Byte
  N : ℕ

/-- Whether there is a minus, and what comes after the sign. -/
def detectSign (tok : Token) : Bool × List Byte × ℕ :=
  if peekNextChar tok.start = ascii '+' then
    (false, tok.start.drop 1, (tok.length + 2 ^ 32 - 1) % 2 ^ 32)
  else if peekNextChar tok.start = ascii '-' then
    (true, tok.start.drop 1, (tok.length + 2 ^ 32 - 1) % 2 ^ 32)
  else (false, tok.start, tok.length)

/-- "Detect 0[box]." -/
def numberForm (tok : Token) : NumberForm :=
  let (HasMinus, S, N) := detectSign tok
  let kind := peekNextChar (S.drop 1)
  if 2 ≤ tok.length ∧ peekNextChar S = ascii '0'
      ∧ (kind = ascii 'b' ∨ kind = ascii 'o' ∨ kind = ascii 'x') then
    let N := (N + 2 ^ 32 - 2) % 2 ^ 32
    if kind = ascii 'b' then ⟨HasMinus, 2, 1, true, S.drop 2, N⟩
    else if kind = ascii 'o' then ⟨HasMinus, 8, 3, true, S.drop 2, N⟩
    else ⟨HasMinus, 16, 4, true, S.drop 2, N⟩
  else ⟨HasMinus, 10, 4, false, S, N⟩

/-- The bits the value is computed in. -/
def NumberForm.bits (form : NumberForm) : ℕ := form.RadixBits * form.N % 2 ^ 32

def digit (c : ℤ) : Option ℕ :=
  if ascii '0' ≤ c ∧ c ≤ ascii '9' then some (c - ascii '0').toNat
  else if ascii 'a' ≤ c ∧ c ≤ ascii 'z' then some (c - ascii 'a' + 10).toNat
  else if ascii 'A' ≤ c ∧ c ≤ ascii 'Z' then some (c - ascii 'A' + 10).toNat
  else none

/-- The loop over the digits. -/
def digitsLoop (Radix : ℕ) {w : ℕ} : List Byte → BitVec w → Except String (BitVec w)
  | [], Val => .ok Val
  | c :: S, Val =>
      if c.toInt = ascii '_' then digitsLoop Radix S Val
      else
        match digit c.toInt with
        | none => .error "invalid character in numeric token."
        | some d =>
            if Radix ≤ d then .error "invalid character in numeric token (out of range)."
            else digitsLoop Radix S (Val * BitVec.ofNat w Radix + BitVec.ofNat w d)

/-- A message, and `Builder->Constant(0, Type)`. -/
def numberError (type : ℕ) (message : String) : Option (Option String × APInt) :=
  if type = 0 then none else some (some message, APInt.ofNat type 0)

/-- `ParseNumberToken`: a message, if there is an error, and the constant. -/
def ParseNumberToken (type : ℕ) (tok : Token) : Option (Option String × APInt) :=
  let form := numberForm tok
  if form.prefixed ∧ form.N = 0 then numberError type "invalid numeric token (no digits)."
  else if form.bits = 0 then none
  else
    match digitsLoop form.Radix (form.S.take form.N) (BitVec.ofNat form.bits 0) with
    | .error message => numberError type message
    | .ok Val =>
        let Val := if form.HasMinus then -Val else Val
        -- `trunc`, or `zext`, or neither
        if type = 0 then none else some (none, ⟨type, Val.setWidth type⟩)

end ParserImpl

/-! ## What a literal writes -/

namespace Literal

/-- The digits of all radices, with their values. -/
def digits : List (Byte × ℕ) :=
  (bytesOf "0123456789abcdef").zip (List.range 16) ++ (bytesOf "ABCDEF").zip [10, 11, 12, 13, 14, 15]

/-- The value of a digit that the radix has. -/
def digit (radix : ℕ) (c : Byte) : Option ℕ := (digits.lookup c).filter (· < radix)

/-- The number that digits write, most significant first; underscores do not count. -/
def natural (radix : ℕ) (text : List Byte) : Option ℕ :=
  let ds := text.filter fun c => c ≠ 0x5F#8
  if ds = [] then none else (ds.mapM (digit radix)).map fun ds => Nat.ofDigits radix ds.reverse

/-- The radix that a prefix stands for, with the bits that a digit can need. -/
def radix (c : Byte) : Option (ℕ × ℕ) :=
  [(0x62#8, 2, 1), (0x6F#8, 8, 3), (0x78#8, 16, 4)].lookup c

/-- The radix, the bits of a digit and the digits of a literal without a sign. -/
def split : List Byte → (ℕ × ℕ) × List Byte
  | z :: c :: text =>
      match if z = 0x30#8 then radix c else none with
      | some r => (r, text)
      | none => ((10, 4), z :: c :: text)
  | text => ((10, 4), text)

/-- Whether there is a minus, and the literal without the sign. -/
def sign : List Byte → Bool × List Byte
  | 0x2D#8 :: text => (true, text)
  | 0x2B#8 :: text => (false, text)
  | text => (false, text)

/-- The integer that a literal writes. -/
def integer (text : List Byte) : Option ℤ :=
  let (minus, body) := sign text
  let ((radix, _), ds) := split body
  (natural radix ds).map fun v : ℕ => if minus then -(v : ℤ) else v

end Literal

namespace ParserImpl

/-! ## The digits -/

theorem digit_eq : ∀ radix ∈ [2, 8, 10, 16], ∀ c : Byte,
    Literal.digit radix c = (digit c.toInt).filter (· < radix) := by
  decide +kernel

theorem underscore_iff (c : Byte) : c.toInt = ascii '_' ↔ c = 0x5F#8 := by
  constructor
  · intro h
    exact BitVec.eq_of_toInt_eq h
  · rintro rfl
    rfl

/-- Horner's rule. -/
theorem ofDigits_reverse (radix : ℕ) (ds : List ℕ) :
    Nat.ofDigits radix ds.reverse = ds.foldl (fun v d => v * radix + d) 0 := by
  rw [Nat.ofDigits_eq_foldr, List.foldr_reverse]
  congr 1
  funext v d
  show d + radix * v = v * radix + d
  ring

variable {radix : ℕ} {text rest : List Byte}

/-- The loop computes the number, modulo the bits it has. -/
theorem digitsLoop_spec (hradix : radix ∈ [2, 8, 10, 16]) (w : ℕ) {ds : List ℕ}
    (hds : (text.filter fun c => c ≠ 0x5F#8).mapM (Literal.digit radix) = some ds) (v : ℕ) :
    digitsLoop radix text (BitVec.ofNat w v)
      = .ok (BitVec.ofNat w (ds.foldl (fun v d => v * radix + d) v)) := by
  induction text generalizing ds v with
  | nil =>
    obtain rfl : [] = ds := Option.some.inj hds
    rfl
  | cons c text ih =>
    rw [digitsLoop]
    by_cases hc : c = 0x5F#8
    · rw [if_pos ((underscore_iff c).mpr hc)]
      rw [List.filter_cons_of_neg (by simp [hc])] at hds
      exact ih hds v
    · rw [if_neg (fun h => hc ((underscore_iff c).mp h))]
      rw [List.filter_cons_of_pos (by simp [hc]), List.mapM_cons] at hds
      obtain ⟨d, hd, hrest⟩ := Option.bind_eq_some_iff.mp hds
      obtain ⟨ds', hds', heq⟩ := Option.bind_eq_some_iff.mp hrest
      obtain rfl : d :: ds' = ds := Option.some.inj heq
      rw [digit_eq radix hradix] at hd
      obtain ⟨hd, hlt⟩ := Option.filter_eq_some_iff.mp hd
      have hlt : d < radix := of_decide_eq_true hlt
      rw [hd]
      dsimp only
      rw [if_neg (Nat.not_le.mpr hlt), List.foldl_cons, ← BitVec.ofNat_mul, ← BitVec.ofNat_add]
      exact ih hds' _

/-! ## The sign and the prefix -/

theorem toInt_eq_ascii {c d : Byte} {a : ℤ} (hd : d.toInt = a) : c.toInt = a ↔ c = d := by
  constructor
  · intro h
    exact BitVec.eq_of_toInt_eq (h.trans hd.symm)
  · rintro rfl
    exact hd

/-- What comes after the sign is not empty, and is what comes after it in the literal. -/
theorem detectSign_eq (h : IsNumber text) (hlen : text.length < 2 ^ 32) (rest : List Byte) :
    (Literal.sign text).2 ≠ []
      ∧ (Literal.sign text).2.length ≤ text.length
      ∧ detectSign ⟨.Number, text ++ rest, text.length⟩
        = ((Literal.sign text).1, (Literal.sign text).2 ++ rest, (Literal.sign text).2.length) := by
  obtain ⟨sign, c, cs, rfl, hsign, hdigit, -⟩ := h
  have hlength : ∀ n, n + 1 < 2 ^ 32 → (n + 1 + 2 ^ 32 - 1) % 2 ^ 32 = n := by
    intro n hn
    omega
  rcases hsign with rfl | rfl | rfl
  · have hplus : c ≠ 0x2B#8 := by
      rintro rfl
      exact absurd hdigit (by decide)
    have hminus : c ≠ 0x2D#8 := by
      rintro rfl
      exact absurd hdigit (by decide)
    have hnone : Literal.sign (c :: cs) = (false, c :: cs) := by
      rw [Literal.sign]
      · rintro x heq
        exact hminus (List.cons.inj heq).1
      · rintro x heq
        exact hplus (List.cons.inj heq).1
    have h₁ : ¬peekNextChar (c :: cs ++ rest) = ascii '+' := fun h => hplus ((toInt_eq_ascii rfl).mp h)
    have h₂ : ¬peekNextChar (c :: cs ++ rest) = ascii '-' :=
      fun h => hminus ((toInt_eq_ascii rfl).mp h)
    rw [List.nil_append, hnone]
    refine ⟨by simp, Nat.le_refl _, ?_⟩
    rw [detectSign, if_neg h₁, if_neg h₂]
  · have hpeek : peekNextChar ((bytesOf "+" ++ c :: cs) ++ rest) = ascii '+' := rfl
    refine ⟨by simp [bytesOf, Literal.sign], Nat.le_succ _, ?_⟩
    rw [detectSign, if_pos hpeek]
    exact congrArg (fun n => (false, c :: cs ++ rest, n)) (hlength _ hlen)
  · have hpeek : peekNextChar ((bytesOf "-" ++ c :: cs) ++ rest) = ascii '-' := rfl
    have hnot : ¬peekNextChar ((bytesOf "-" ++ c :: cs) ++ rest) = ascii '+' := by
      rw [hpeek]
      decide
    refine ⟨by simp [bytesOf, Literal.sign], Nat.le_succ _, ?_⟩
    rw [detectSign, if_neg hnot, if_pos hpeek]
    exact congrArg (fun n => (true, c :: cs ++ rest, n)) (hlength _ hlen)

/-- The radix that the code takes from the character after a zero. -/
theorem radix_eq (c : Byte) : Literal.radix c
    = if c.toInt = ascii 'b' ∨ c.toInt = ascii 'o' ∨ c.toInt = ascii 'x' then
        (if c.toInt = ascii 'b' then some (2, 1)
          else if c.toInt = ascii 'o' then some (8, 3) else some (16, 4))
      else none := by
  revert c
  decide +kernel

/-- The form of a token is that of the literal. -/
theorem numberForm_eq (h : IsNumber text) (hlen : text.length < 2 ^ 32)
    (hrest : isNumberChar (peekNextChar rest) = false) :
    ∃ radix bits prefixed ds, Literal.split (Literal.sign text).2 = ((radix, bits), ds)
      ∧ (radix, bits) ∈ [(2, 1), (8, 3), (10, 4), (16, 4)]
      ∧ numberForm ⟨.Number, text ++ rest, text.length⟩
        = ⟨(Literal.sign text).1, radix, bits, prefixed, ds ++ rest, ds.length⟩ := by
  obtain ⟨hne, hle, hsign⟩ := detectSign_eq h hlen rest
  obtain ⟨c, body, hbody⟩ := List.exists_cons_of_ne_nil hne
  rw [hbody] at hsign hle ⊢
  unfold numberForm
  rw [hsign]
  dsimp only
  cases body with
  | nil =>
    -- the character after the one digit does not belong to the token
    have hkind : ¬(peekNextChar (([c] ++ rest).drop 1) = ascii 'b'
        ∨ peekNextChar (([c] ++ rest).drop 1) = ascii 'o'
        ∨ peekNextChar (([c] ++ rest).drop 1) = ascii 'x') := by
      show ¬(peekNextChar rest = _ ∨ peekNextChar rest = _ ∨ peekNextChar rest = _)
      rintro (heq | heq | heq) <;> rw [heq] at hrest <;> exact absurd hrest (by decide)
    refine ⟨10, 4, false, [c], rfl, by decide, ?_⟩
    rw [if_neg (fun h => hkind h.2.2)]
  | cons x ds =>
    have hpeek : peekNextChar ((c :: x :: ds ++ rest).drop 1) = x.toInt := rfl
    have hzero : peekNextChar (c :: x :: ds ++ rest) = ascii '0' ↔ c = 0x30#8 := toInt_eq_ascii rfl
    have hlong : 2 ≤ text.length := by
      have htwo : (c :: x :: ds).length = ds.length + 2 := rfl
      omega
    have hN : ((c :: x :: ds).length + 2 ^ 32 - 2) % 2 ^ 32 = ds.length := by
      rw [List.length_cons, List.length_cons] at hle ⊢
      omega
    have hsplit : Literal.split (c :: x :: ds)
        = match if c = 0x30#8 then Literal.radix x else none with
          | some r => (r, ds)
          | none => ((10, 4), c :: x :: ds) := rfl
    rw [hpeek, hN, hsplit, radix_eq x]
    have hcond : (2 ≤ text.length ∧ peekNextChar (c :: x :: ds ++ rest) = ascii '0'
        ∧ (x.toInt = ascii 'b' ∨ x.toInt = ascii 'o' ∨ x.toInt = ascii 'x'))
        ↔ c = 0x30#8 ∧ (x.toInt = ascii 'b' ∨ x.toInt = ascii 'o' ∨ x.toInt = ascii 'x') := by
      rw [hzero]
      exact and_iff_right hlong
    by_cases hbox : c = 0x30#8 ∧ (x.toInt = ascii 'b' ∨ x.toInt = ascii 'o' ∨ x.toInt = ascii 'x')
    · rw [if_pos (hcond.mpr hbox), if_pos hbox.1, if_pos hbox.2]
      split_ifs with hb ho
      · exact ⟨2, 1, true, ds, rfl, by decide, rfl⟩
      · exact ⟨8, 3, true, ds, rfl, by decide, rfl⟩
      · exact ⟨16, 4, true, ds, rfl, by decide, rfl⟩
    · rw [if_neg (fun h => hbox (hcond.mp h))]
      refine ⟨10, 4, false, c :: x :: ds, ?_, by decide, rfl⟩
      by_cases hz : c = 0x30#8
      · rw [if_pos hz, if_neg (fun h => hbox ⟨hz, h⟩)]
      · rw [if_neg hz]

/-! ## The value -/

/-- A literal of the right form and its value, in the bits of its digits. -/
theorem digitsLoop_natural {bits : ℕ} (hradix : (radix, bits) ∈ [(2, 1), (8, 3), (10, 4), (16, 4)])
    {ds : List Byte} {v : ℕ} (hv : Literal.natural radix ds = some v) (w : ℕ) :
    ds ≠ [] ∧ digitsLoop radix ds (0#w) = .ok (BitVec.ofNat w v) := by
  have hmem : radix ∈ [2, 8, 10, 16] := List.mem_map_of_mem (f := Prod.fst) hradix
  unfold Literal.natural at hv
  dsimp only at hv
  split at hv
  next => exact absurd hv (by simp)
  next hne =>
    obtain ⟨digits, hdigits, rfl⟩ := Option.map_eq_some_iff.mp hv
    refine ⟨?_, ?_⟩
    · rintro rfl
      exact hne rfl
    · rw [ofDigits_reverse]
      exact digitsLoop_spec hmem w hdigits 0

theorem signed_ofNat (minus : Bool) (w v : ℕ) :
    (if minus then -BitVec.ofNat w v else BitVec.ofNat w v)
      = BitVec.ofInt w (if minus then -(v : ℤ) else v) := by
  cases minus with
  | true => exact (BitVec.ofInt_neg.trans (congrArg _ (BitVec.ofInt_natCast w v))).symm
  | false => exact (BitVec.ofInt_natCast w v).symm

/-- Cutting or extending an integer that was reduced to `b` bits. -/
theorem setWidth_ofInt_iff (b w : ℕ) (z : ℤ) :
    (BitVec.ofInt b z).setWidth w = BitVec.ofInt w z ↔ w ≤ b ∨ z % 2 ^ w < 2 ^ b := by
  have hpos : ∀ k : ℕ, (0 : ℤ) < 2 ^ k := fun k => pow_pos (by decide) k
  have hvalue : (BitVec.ofInt b z).setWidth w = BitVec.ofInt w z
      ↔ z % 2 ^ b % 2 ^ w = z % 2 ^ w := by
    have hnonneg : ∀ k : ℕ, 0 ≤ z % ((2 ^ k : ℕ) : ℤ) := by
      intro k
      push_cast
      exact Int.emod_nonneg z (hpos k).ne'
    rw [← BitVec.toNat_inj, BitVec.toNat_setWidth, BitVec.toNat_ofInt, BitVec.toNat_ofInt,
      ← Int.natCast_inj, Int.natCast_emod, Int.toNat_of_nonneg (hnonneg b),
      Int.toNat_of_nonneg (hnonneg w)]
    push_cast
    rfl
  rw [hvalue]
  by_cases hle : w ≤ b
  · exact iff_of_true (Int.emod_emod_of_dvd z (pow_dvd_pow 2 hle)) (.inl hle)
  · have hdvd : (2 : ℤ) ^ b ∣ 2 ^ w := pow_dvd_pow 2 (by omega)
    have hlt : z % 2 ^ b < 2 ^ b := Int.emod_lt_of_pos z (hpos b)
    have hmod : z % 2 ^ b % 2 ^ w = z % 2 ^ b :=
      Int.emod_eq_of_lt (Int.emod_nonneg z (hpos b).ne')
        (hlt.trans_le (Int.le_of_dvd (hpos w) hdvd))
    rw [hmod, or_iff_right hle]
    constructor
    · intro h
      rw [← h]
      exact hlt
    · intro h
      rw [← Int.emod_emod_of_dvd z hdvd]
      exact Int.emod_eq_of_lt (Int.emod_nonneg z (hpos w).ne') h

/-- A number token and the integer it writes, taken apart. -/
theorem number_form {buf : List Byte} {tok : Token} (hlex : Lexer.lex buf = (tok, rest))
    (hkind : tok.kind = .Number) (hlen : tok.length + rest.length = tok.start.length) {z : ℤ}
    (hz : Literal.integer tok.getString = some z) :
    ∃ minus radix bits pre ds v,
      numberForm tok = ⟨minus, radix, bits, pre, ds ++ rest, ds.length⟩
      ∧ (radix, bits) ∈ [(2, 1), (8, 3), (10, 4), (16, 4)]
      ∧ Literal.natural radix ds = some v ∧ z = if minus then -(v : ℤ) else v := by
  obtain ⟨text, htext, hpeek, rfl⟩ := Lexer.lex_number hlex hkind
  have hlength : text.length % 2 ^ 32 = text.length := by
    dsimp only at hlen
    rw [List.length_append] at hlen
    exact Nat.add_right_cancel hlen
  have hlt : text.length < 2 ^ 32 := by
    rw [← hlength]
    exact Nat.mod_lt _ (by decide)
  rw [hlength] at hz ⊢
  have hstring : Token.getString ⟨.Number, text ++ rest, text.length⟩ = text := List.take_left
  rw [hstring] at hz
  obtain ⟨radix, bits, pre, ds, hsplit, hradix, hform⟩ := numberForm_eq htext hlt hpeek
  unfold Literal.integer at hz
  dsimp only at hz
  rw [hsplit] at hz
  obtain ⟨v, hv, rfl⟩ := Option.map_eq_some_iff.mp hz
  exact ⟨_, radix, bits, pre, ds, v, hform, hradix, hv, rfl⟩

/-- A numeric literal means what it says exactly when the target is not wider than the bits of
its digits, or the integer does not need more bits than these modulo the target. -/
theorem parseNumberToken_iff {buf rest : List Byte} {tok : Token} (hlex : Lexer.lex buf = (tok, rest))
    (hkind : tok.kind = .Number) (hlen : tok.length + rest.length = tok.start.length) {z : ℤ}
    (hz : Literal.integer tok.getString = some z) (type : ℕ) :
    ParseNumberToken type tok = some (none, ⟨type, BitVec.ofInt type z⟩)
      ↔ 0 < type ∧ (numberForm tok).bits ≠ 0
        ∧ (type ≤ (numberForm tok).bits ∨ z % 2 ^ type < 2 ^ (numberForm tok).bits) := by
  obtain ⟨minus, radix, bits, pre, ds, v, hform, hradix, hv, rfl⟩ := number_form hlex hkind hlen hz
  obtain ⟨hne, hloop⟩ := digitsLoop_natural hradix hv (numberForm tok).bits
  have hN : ds.length ≠ 0 := fun h => hne (List.length_eq_zero_iff.mp h)
  unfold ParseNumberToken
  rw [hform] at hloop ⊢
  dsimp only
  rw [if_neg (fun h => hN h.2), List.take_left, hloop]
  dsimp only
  by_cases hbits : NumberForm.bits ⟨minus, radix, bits, pre, ds ++ rest, ds.length⟩ = 0
  · rw [if_pos hbits]
    exact iff_of_false (by simp) (fun h => h.2.1 hbits)
  · rw [if_neg hbits, signed_ofNat]
    by_cases htype : type = 0
    · rw [if_pos htype]
      exact iff_of_false (by simp) (fun h => h.1.ne' htype)
    · rw [if_neg htype, Option.some.injEq, Prod.mk.injEq, and_iff_right rfl, APInt.mk_inj,
        setWidth_ofInt_iff, and_iff_right (Nat.pos_of_ne_zero htype), and_iff_right hbits]

/-- `-0x10` has the eight bits of its target. -/
theorem parseNumberToken_iff_minus_sixteen :
    ParseNumberToken 8 (Lexer.lex (bytesOf "-0x10 ")).1 = some (none, ⟨8, BitVec.ofInt 8 (-16)⟩) :=
  (parseNumberToken_iff (Prod.mk.eta (p := Lexer.lex (bytesOf "-0x10 "))).symm (by decide +kernel)
    (by decide +kernel) (z := -16) (by decide +kernel) 8).mpr (by decide +kernel)

/-- `-1` is computed in four bits, and becomes 15. -/
theorem parseNumberToken_minus_one :
    ¬∀ (buf rest : List Byte) (tok : Token) (z : ℤ) (type : ℕ), Lexer.lex buf = (tok, rest) →
      tok.kind = .Number → Literal.integer tok.getString = some z → 0 < type →
      ParseNumberToken type tok = some (none, ⟨type, BitVec.ofInt type z⟩) := by
  intro h
  have hone := h (bytesOf "-1") [] _ (-1) 8 (show Lexer.lex (bytesOf "-1") = (⟨.Number, bytesOf "-1", 2⟩, [])
    by decide +kernel) rfl (by decide +kernel) (by decide)
  exact absurd hone (by decide +kernel)

/-! ## Literals that are not too long -/

end ParserImpl

end Xklee
