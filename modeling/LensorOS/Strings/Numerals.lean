import Mathlib.Data.Nat.Digits.Lemmas

/-!
# Numerals

The texts of integers, and the hexadecimal numbers that the kernel hands to a program.
-/
namespace LensorOS.Strings
open List
def digit (upper : Bool) (d : Int) : BitVec 8 :=
  .ofInt 8 (if d > 9 then (if upper then 65 else 97)+d-10 else 48+d)

def digits (base : Nat) (upper : Bool) : (turns : Nat) → Int → List (BitVec 8)
  | turns+1, i =>
    if i = 0 then [] else digit upper (i.tmod base) :: digits base upper turns (i.tdiv base)
  | 0, _ => []

def sign (i : Int) : List (BitVec 8) := if i < 0 then [45] else []

/-- The least value of a signed type is its own negative. -/
def magnitude (bits : Nat) (i : Int) : Int := if i < 0 then (-i).bmod (2^bits) else i

@[simp] theorem sign_natCast (n : Nat) : sign n = [] := if_neg (by omega)

@[simp] theorem magnitude_natCast (bits n : Nat) : magnitude bits n = n := if_neg (by omega)

/-- The sign is reversed together with the digits. -/
def toString (bits : Nat) (i : Int) (base : Nat) (upper : Bool) : List (BitVec 8) :=
  let m := magnitude bits i
  if m = 0 then sign i ++ [48] else (sign i ++ digits base upper m.natAbs m).reverse

inductive Format | bin | oct | dec | hex

def Format.base : Format → Nat
  | bin => 2
  | oct => 8
  | dec => 10
  | hex => 16

/-- The prefix of the alternative representation, which a decimal number does not have. -/
def Format.pre (alt upper : Bool) : Format → Option (List (BitVec 8))
  | bin => some (if alt then [48,if upper then 66 else 98] else [])
  | oct => some (if alt then [48] else [])
  | dec => if alt then none else some []
  | hex => some (if alt then [48,if upper then 88 else 120] else [])

def padded (width : Nat) (num : List (BitVec 8)) : List (BitVec 8) :=
  replicate (width-num.length) 48 ++ num

/-- An argument of any width is widened to 64 bits. -/
def format (fmt : Format) (alt upper : Bool) (width : Nat) (val : Int) : Option (List (BitVec 8)) :=
  (fmt.pre alt upper).map fun pre =>
    sign val ++ pre ++ padded width (toString 64 (magnitude 64 val) fmt.base upper)

/-- The canonical numeral: the highest digit first and no leading zeros. -/
def numeral (base : Nat) (upper : Bool) (n : Nat) : List (BitVec 8) :=
  if n = 0 then [48] else ((base.digits n).map fun d : Nat => digit upper d).reverse

theorem digits_eq {base : Nat} (hb : 2 ≤ base) (upper : Bool) (turns n : Nat)
    (hn : n < base^turns) :
    digits base upper turns n = (base.digits n).map fun d : Nat => digit upper d := by
  induction turns generalizing n with
  | zero =>
    obtain rfl : n = 0 := by simpa using hn
    simp [digits]
  | succ turns ih =>
    rcases Nat.eq_zero_or_pos n with rfl | hp
    · simp [digits]
    have hd : n / base < base^turns := Nat.div_lt_of_lt_mul (by rwa [← pow_succ'])
    rw [digits,if_neg (by omega),Nat.digits_def' hb hp,map_cons,← ih _ hd,
      ← Int.ofNat_tmod,← Int.ofNat_tdiv]

theorem toString_eq {base : Nat} (hb : 2 ≤ base) (bits : Nat) (upper : Bool) (n : Nat) :
    toString bits n base upper = numeral base upper n := by
  simp only [toString,numeral,magnitude_natCast,sign_natCast,nil_append,Int.natAbs_natCast,
    Int.natCast_eq_zero]
  rw [digits_eq hb _ _ _ (Nat.lt_pow_self hb)]

theorem magnitude_eq {bits : Nat} {val : Int} (hm : -2^(bits-1) < val) :
    magnitude bits val = val.natAbs := by
  unfold magnitude
  split
  · have hp : 0 < bits := by
      by_contra h0
      simp [show bits = 0 by omega] at hm
      omega
    have hpo : (2 : Int)^bits = 2^(bits-1) * 2 := by rw [← pow_succ,Nat.sub_add_cancel hp]
    rw [Int.bmod_eq_of_le_mul_two (by push_cast; omega) (by push_cast; omega)]
    omega
  · omega

def value (c : BitVec 8) : Nat :=
  if c.toNat < 58 then c.toNat-48 else if c.toNat < 91 then c.toNat-55 else c.toNat-87

def parse (base : Nat) (text : List (BitVec 8)) : Nat :=
  text.foldl (fun out c => out * base+value c) 0

theorem value_digit (upper : Bool) : ∀ d : Nat, d < 36 → value (digit upper d) = d := by
  cases upper <;> decide +kernel

theorem parse_numeral {base : Nat} (hb : 2 ≤ base) (hl : base ≤ 36) (upper : Bool) (n : Nat) :
    parse base (numeral base upper n) = n := by
  rw [numeral]
  split_ifs with h0
  · simp [h0,parse,value]
  rw [parse,foldl_reverse,foldr_map]
  conv_rhs => rw [← Nat.ofDigits_digits base n,Nat.ofDigits_eq_foldr]
  apply foldr_ext
  intro d hd out
  rw [value_digit upper d ((Nat.digits_lt_base hb hd).trans_le hl),mul_comm,add_comm,Nat.cast_id]

theorem parse_padded (base width : Nat) (num : List (BitVec 8)) :
    parse base (padded width num) = parse base num := by
  rw [padded,parse,foldl_append]
  congr 1
  induction width-num.length with
  | zero => rfl
  | succ n ih => simpa [replicate_succ,value] using ih

/-- A numeral ends in a digit. -/
theorem getLast_numeral {base : Nat} (hb : 2 ≤ base) (hl : base ≤ 36) (upper : Bool) (n : Nat)
    (s : List (BitVec 8)) : (s ++ numeral base upper n).getLast? ≠ some 45 := by
  have hd : ∀ upper, ∀ d : Nat, d < 36 → digit upper d ≠ 45 := by decide +kernel
  rw [numeral]
  split_ifs with h0
  · rw [getLast?_concat]
    decide
  · have hlt : n % base < 36 := (Nat.mod_lt n (by omega)).trans_le hl
    rw [Nat.digits_def' hb (Nat.pos_of_ne_zero h0),map_cons,reverse_cons,← append_assoc,getLast?_concat]
    exact fun he => hd upper _ hlt (Option.some.inj he)

theorem magnitude_ne_zero {bits : Nat} {i : Int} (hbits : 0 < bits) (hmin : -2^(bits-1) ≤ i)
    (hi : i < 0) : magnitude bits i ≠ 0 := by
  have hp : (2 : Int)^bits = 2^(bits-1) * 2 := by rw [← pow_succ,Nat.sub_add_cancel hbits]
  rw [magnitude,if_pos hi]
  intro h0
  have hd : ((2^bits : Nat) : Int) ∣ -i := Int.dvd_of_bmod_eq_zero h0
  have hle := Int.le_of_dvd (by omega) hd
  push_cast at hle
  omega

/-- The minus of a negative number comes last. -/
theorem getLast_toString {bits : Nat} {i : Int} (hbits : 0 < bits) (hmin : -2^(bits-1) ≤ i) (hi : i < 0)
    (base : Nat) (upper : Bool) (s : List (BitVec 8)) :
    (s ++ toString bits i base upper).getLast? = some 45 := by
  rw [toString,if_neg (magnitude_ne_zero hbits hmin hi),sign,if_pos hi,singleton_append,reverse_cons,
    ← append_assoc,getLast?_concat]

/-- The text of a number is its numeral if it is not negative, and what the formatter writes is the
numeral unless it is the least number of 64 bits. -/
theorem integer_text_iff {base : Nat} (hbase : 2 ≤ base) (hle : base ≤ 36) (upper : Bool) {bits : Nat}
    (hbits : 0 < bits ∧ bits ≤ 64) {i : Int} (hmin : -2^(bits-1) ≤ i) :
    (toString bits i base upper = sign i ++ numeral base upper i.natAbs ↔ 0 ≤ i) ∧
      (∀ fmt alt width pre, Format.pre alt upper fmt = some pre →
        (format fmt alt upper width i = some (sign i ++ pre ++
          padded width (numeral fmt.base upper i.natAbs)) ↔ i ≠ -2^63)) ∧
      ∀ width, parse base (padded width (numeral base upper i.natAbs)) = i.natAbs := by
  refine ⟨⟨fun he => ?_,fun h0 => ?_⟩,fun fmt alt width pre hpre => ?_,fun width => ?_⟩
  · by_contra hi
    have hl := getLast_toString hbits.1 hmin (not_le.mp hi) base upper []
    rw [nil_append,he] at hl
    exact getLast_numeral hbase hle upper _ _ hl
  · have ht := toString_eq hbase bits upper i.natAbs
    rw [Int.natAbs_of_nonneg h0] at ht
    rw [ht,sign,if_neg (not_lt.mpr h0),nil_append]
  · have hb : 2 ≤ fmt.base ∧ fmt.base ≤ 36 := by cases fmt <;> decide
    rw [format,hpre,Option.map_some,Option.some_inj]
    constructor
    · rintro he rfl
      have hm : magnitude 64 (-2^63) = -2^63 := by decide
      have hl := @getLast_toString 64 _ (by decide) (le_refl _) (by decide) fmt.base upper
        (sign (-2^63) ++ pre ++ replicate (width-(toString 64 (-2^63) fmt.base upper).length) 48)
      rw [hm,padded,← append_assoc] at he
      rw [he,padded,← append_assoc] at hl
      exact getLast_numeral hb.1 hb.2 upper _ _ hl
    · intro hne
      have hp : (2 : Int)^(bits-1) ≤ 2^63 := pow_le_pow_right₀ (by decide) (by omega)
      rw [magnitude_eq (by omega),toString_eq hb.1]
  · rw [parse_padded,parse_numeral hbase hle]

theorem integer_text_signed : format .dec false false 4 (-128) = some [45,48,49,50,56] ∧
    toString 8 127 10 false = [49,50,55] ∧ parse 10 [48,49,50,56] = 128 := by
  have h := @integer_text_iff 10 (by decide) (by decide) false 8 (by decide) (-128) (by decide)
  have h' := @integer_text_iff 10 (by decide) (by decide) false 8 (by decide) 127 (by decide)
  exact ⟨((h.2.1 .dec false 4 [] rfl).mpr (by decide)).trans (by decide),
    (h'.1.mpr (by decide)).trans (by decide),h.2.2 4⟩

/-- The minus comes last. -/
theorem toString_negative : toString 32 (-12) 10 false = [49,50,45] ∧
    sign (-12) ++ numeral 10 false 12 = [45,49,50] ∧
    format .dec false false 0 (-2^63) ≠ some (sign (-2^63) ++ numeral 10 false (2^63)) := by
  decide +kernel

def hexDigitValue (c : BitVec 8) : Option Nat :=
  if 48 ≤ c.toNat ∧ c.toNat ≤ 57 then some (c.toNat-48)
  else if 65 ≤ c.toNat ∧ c.toNat ≤ 70 then some (10+c.toNat-65)
  else if 97 ≤ c.toNat ∧ c.toNat ≤ 102 then some (10+c.toNat-97)
  else none

/-- Both digits of each of the eight rounds are read in the same way. -/
def readDigits : (turns : Nat) → List (BitVec 8) → (out : Nat) → Nat
  | turns+1, c :: str, out =>
    match hexDigitValue c with
    | some val => readDigits turns str ((out <<< 4 ||| val) % 2^64)
    | none => out
  | _, _, out => out

def hexstringToNumber (str : List (BitVec 8)) : Nat :=
  readDigits 16 (if str.take 2 = [48,120] then str.drop 2 else str) 0

def hexValueDigit (value : Nat) : BitVec 8 :=
  .ofNat 8 (if value < 10 then value+48 else if value < 16 then value-10+97 else 255)

def fprintBytes (number : Nat) : (leading : Bool) → (i : Nat) → List (BitVec 8)
  | leading, i+1 =>
    if leading ∧ number >>> (i * 8) &&& 255 = 0 then fprintBytes number leading i
    else hexValueDigit (number >>> (4+i * 8) &&& 15) :: hexValueDigit (number >>> (i * 8) &&& 15) ::
      fprintBytes number false i
  | leading, 0 => if leading then [48] else []

def fprintHexnumber (number : Nat) : List (BitVec 8) := fprintBytes number true 8

def Hex (text : List (BitVec 8)) : Prop :=
  text.length ≤ 16 ∧ ∀ c ∈ text, hexDigitValue c = some (value c)

theorem readDigits_eq {text : List (BitVec 8)} (h : ∀ c ∈ text, hexDigitValue c = some (value c))
    {k turns out : Nat} (hk : k+turns = 16) (ho : out < 16^k) (hl : text.length ≤ turns) :
    readDigits turns text out = text.foldl (fun out c => out * 16+value c) out := by
  induction text generalizing k turns out with
  | nil => cases turns <;> rfl
  | cons c text ih =>
    obtain ⟨turns,rfl⟩ := Nat.exists_eq_add_of_le' hl
    have hc := h c mem_cons_self
    have hv : value c < 2^4 := by
      unfold hexDigitValue at hc
      split_ifs at hc <;> grind
    have hp : 16^k ≤ 16^15 := Nat.pow_le_pow_right (by decide) (by grind)
    have hor : out <<< 4 ||| value c = out * 16+value c := by
      rw [← Nat.shiftLeft_add_eq_or_of_lt hv,Nat.shiftLeft_eq]
    simp only [length_cons,← add_assoc,readDigits,hc,foldl_cons]
    rw [hor,Nat.mod_eq_of_lt (by omega)]
    exact ih (fun c hc => h c (mem_cons_of_mem _ hc)) (k := k+1) (by grind) (by rw [pow_succ]; omega)
      (by omega)

theorem Hex.number_eq {text : List (BitVec 8)} (h : Hex text) :
    hexstringToNumber text = parse 16 text := by
  rw [hexstringToNumber,if_neg,readDigits_eq h.2 rfl (by decide) h.1,parse]
  intro ht
  have hm : 120 ∈ text.take 2 := by simp [ht]
  exact absurd (h.2 _ (mem_of_mem_take hm)) (by decide)

theorem numeral_hex (v : BitVec 64) : Hex (numeral 16 false v.toNat) := by
  have hdi : ∀ d : Nat, d < 16 → hexDigitValue (digit false d) = some (value (digit false d)) := by
    decide +kernel
  unfold numeral
  split_ifs
  · exact ⟨by decide,by decide⟩
  have hl : (Nat.digits 16 v.toNat).length ≤ 16 :=
    (Nat.digits_length_le_iff (by decide) _).mpr v.isLt
  refine ⟨by simpa using hl,?_⟩
  simp only [mem_reverse,mem_map]
  rintro c ⟨d,hd,rfl⟩
  exact hdi d (Nat.digits_lt_base (by decide) hd)

theorem hexDigitValue_digit : ∀ d < 16, hexDigitValue (hexValueDigit d) = some d ∧
    value (hexValueDigit d) = d := by
  decide +kernel

theorem fprintBytes_spec (number : Nat) (leading : Bool) (i : Nat) :
    let text := fprintBytes number leading i
    text.length ≤ max leading.toNat (2 * i) ∧ (∀ c ∈ text, hexDigitValue c = some (value c)) ∧
    ∀ out, (leading → out = 0) →
      text.foldl (fun out c => out * 16+value c) out = out * 256^i+number % 256^i := by
  have hb (i) : number >>> (i * 8) = number / 256^i := by
    rw [Nat.shiftRight_eq_div_pow,pow_mul']
    rfl
  have hm (i) : number % 256^(i+1) = number % 256^i+256^i * (number / 256^i % 256) :=
    Nat.mod_pow_succ
  have hd (n) := hexDigitValue_digit (n % 16) (by omega)
  fun_induction fprintBytes number leading i with
  | case1 leading i h ih =>
    refine ⟨ih.1.trans (by omega),ih.2.1,fun out ho => ?_⟩
    rw [hb,Nat.and_two_pow_sub_one_eq_mod _ 8] at h
    rw [ih.2.2 out ho,ho h.1,hm,h.2]
    simp
  | case2 leading i h ih =>
    have hl : number / 256^i % 256 = number / 256^i / 16 % 16 * 16+number / 256^i % 16 := by omega
    simp only [add_comm 4,Nat.shiftRight_add,hb,Nat.and_two_pow_sub_one_eq_mod _ 4,
      Nat.shiftRight_eq_div_pow _ 4]
    refine ⟨?_,?_,fun out _ => ?_⟩
    · have hle : (fprintBytes number false i).length ≤ 2 * i := by simpa using ih.1
      simp only [length_cons]
      omega
    · simp only [forall_mem_cons]
      exact ⟨(hd _).1.trans (congrArg some (hd _).2.symm),
        (hd _).1.trans (congrArg some (hd _).2.symm),ih.2.1⟩
    rw [foldl_cons,foldl_cons,ih.2.2 _ (by simp),(hd _).2,(hd _).2,hm,hl,
      Nat.succ_eq_add_one]
    ring
  | case3 => simp [Nat.mod_one,hexDigitValue,value]
  | case4 => simp [Nat.mod_one]

theorem hexstringToNumber_hex (v : BitVec 64) :
    (format .hex false false 0 v.toNat).map hexstringToNumber = some v.toNat ∧
      hexstringToNumber (fprintHexnumber v.toNat) = v.toNat := by
  constructor
  · have ht : format .hex false false 0 v.toNat = some (numeral 16 false v.toNat) := by
      simp [format,Format.pre,Format.base,padded,toString_eq]
    rw [ht,Option.map_some,(numeral_hex v).number_eq,parse_numeral (by decide) (by decide)]
  have h := fprintBytes_spec v.toNat true 8
  have hh : Hex (fprintHexnumber v.toNat) := ⟨h.1,h.2.1⟩
  rw [hh.number_eq]
  exact (h.2.2 0 fun _ => rfl).trans (by omega)
end LensorOS.Strings
