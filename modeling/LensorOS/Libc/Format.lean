import LensorOS.Framework.Bytes
import LensorOS.Strings.Numerals

/-!
# Formatted output

The format interpreters of `vfprintf` and `vsprintf`.
-/
namespace LensorOS.Libc
open Framework List Strings Bytes
inductive Arg
  | str (s : List (BitVec 8))
  | int (v : BitVec 32)
  | ptr
deriving DecidableEq

/-- The digits of a number, in a buffer of 32 characters. -/
def putNumber (val : BitVec 64) : List (BitVec 8) :=
  if val = 0 then [48] else (digits 10 false 32 val.toNat).reverse

def putUnsigned (val : BitVec 32) : List (BitVec 8) := putNumber (val.setWidth 64)

def putInt (val : BitVec 32) : List (BitVec 8) :=
  if val.slt 0 then 45 :: putNumber ((-val).signExtend 64) else putNumber (val.signExtend 64)

def strArg : List Arg → Option (List (BitVec 8) × List Arg)
  | .str s :: args => some (s,args)
  | _ => none

def intArg : List Arg → Option (BitVec 32 × List Arg)
  | .int v :: args => some (v,args)
  | _ => none

/-- The text of a conversion other than `%p`, and the arguments behind its own. -/
def conversion (c : BitVec 8) (args : List Arg) : Option (List (BitVec 8) × List Arg) :=
  if c = 115 then strArg args
  else if c = 99 then (intArg args).map fun (v,args) => ([v.setWidth 8],args)
  else if c = 117 then (intArg args).map fun (v,args) => (putUnsigned v,args)
  else if c = 105 ∨ c = 100 then (intArg args).map fun (v,args) => (putInt v,args)
  else some ([37,c],args)

/-- What is written to the stream; `none` if an argument does not match. -/
def vfprintf : List (BitVec 8) → List Arg → Option (List (BitVec 8))
  | [], _ => some []
  | c :: fmt, args =>
    if c = 37 then
      match fmt with
      | [] => some [37]
      | c :: fmt =>
        if c = 112 then
          match args with
          | .ptr :: args => vfprintf fmt args
          | _ => none
        else (conversion c args).bind fun (s,args) => (vfprintf fmt args).map (s ++ ·)
    else (vfprintf fmt args).map ([c] ++ ·)

/-- The place behind what was stored, and the memory. -/
def vsprintf (m : Bytes) (str : Nat) : List (BitVec 8) → List Arg → Option (Nat × Bytes)
  | [], _ => some (str,m)
  | c :: fmt, args =>
    if c = 37 then
      match fmt with
      | [] => some (str+1, (m.write8 str 37).write8 (str+1) 0)
      | c :: fmt => (conversion c args).bind fun (s,args) =>
        let m := m.store str s
        vsprintf (if c = 115 then m.write8 (str+s.length) 0 else m) (str+s.length) fmt args
    else vsprintf (m.write8 str c) (str+1) fmt args

/-- The format ends in a conversion that stores a NUL. -/
def closes : List (BitVec 8) → Bool
  | [] => false
  | c :: fmt =>
    if c = 37 then
      match fmt with
      | [] => true
      | c :: fmt => c = 115 && fmt.isEmpty || closes fmt
    else closes fmt

def pointerless : List (BitVec 8) → Bool
  | [] => true
  | c :: fmt =>
    if c = 37 then
      match fmt with
      | [] => true
      | c :: fmt => c ≠ 112 && pointerless fmt
    else pointerless fmt

/-- `out` was stored at `str`, nothing in front of it was changed, and the byte behind it only for
a NUL. -/
def Stored (m : Bytes) (str : Nat) (out : List (BitVec 8)) (closed : Bool) (m' : Bytes) : Prop :=
  m'.load str out.length = out ∧ (∀ x < str, m' x = m x) ∧
    m' (str+out.length) = if closed then 0 else m (str+out.length)

variable {fmt s out : List (BitVec 8)} {args : List Arg}
theorem Stored.after {m m1 m' : Bytes} {str : Nat} {closed closed' : Bool}
    (h : Stored m1 (str+s.length) out closed m') (hlo : m1.load str s.length = s)
    (hlow : ∀ x < str, m1 x = m x)
    (hze : (if closed then 0 else m1 (str+s.length+out.length)) =
      if closed' then 0 else m (str+s.length+out.length)) : Stored m str (s ++ out) closed' m' := by
  obtain ⟨hl,hk,hz⟩ := h
  refine ⟨?_,fun x hx => (hk x (by omega)).trans (hlow x hx),?_⟩
  · rw [length_append,load_add,hl,load_congr fun x _ hx => hk x hx,hlo]
  · rw [length_append,← add_assoc,hz,hze]

def Prints (fmt : List (BitVec 8)) (args : List Arg) (out : List (BitVec 8)) : Prop :=
  ∀ (m : Bytes) (str : Nat),
    ∃ m', vsprintf m str fmt args = some (str+out.length,m') ∧ Stored m str out (closes fmt) m'

section
variable {c : BitVec 8} {args' : List Arg}
theorem pointerless_conversion : pointerless (37 :: c :: fmt) ↔ c ≠ 112 ∧ pointerless fmt := by
  rw [pointerless,if_pos rfl,Bool.and_eq_true_iff,decide_eq_true_iff]

theorem pointerless_cons (hc : ¬c = 37) : pointerless (c :: fmt) = pointerless fmt := by
  rw [pointerless.eq_def]
  exact if_neg hc

theorem closes_cons (hc : ¬c = 37) : closes (c :: fmt) = closes fmt := by
  rw [closes.eq_def]
  exact if_neg hc

theorem putNumber_ne_nil (val : BitVec 64) : putNumber val ≠ [] := by
  unfold putNumber
  split
  · exact cons_ne_nil _ _
  next h =>
    have hn : (val.toNat : Int) ≠ 0 := fun h0 => h (BitVec.eq_of_toNat_eq (Int.ofNat_inj.mp h0))
    rw [digits,if_neg hn,reverse_cons]
    exact append_ne_nil_of_right_ne_nil _ (cons_ne_nil _ _)

theorem putInt_ne_nil (v : BitVec 32) : putInt v ≠ [] := by
  unfold putInt
  split
  · exact cons_ne_nil _ _
  · exact putNumber_ne_nil _

/-- Only a string can be empty. -/
theorem conversion_ne_nil (hc : c ≠ 115) (h : conversion c args = some (s,args')) : s ≠ [] := by
  rw [conversion,if_neg hc] at h
  split_ifs at h
  · obtain ⟨x,-,hx⟩ := Option.map_eq_some_iff.mp h
    cases hx
    exact cons_ne_nil _ _
  · obtain ⟨x,-,hx⟩ := Option.map_eq_some_iff.mp h
    cases hx
    exact putNumber_ne_nil _
  · obtain ⟨x,-,hx⟩ := Option.map_eq_some_iff.mp h
    cases hx
    exact putInt_ne_nil _
  · cases h
    exact cons_ne_nil _ _

/-- A pointer is in the way of every conversion that has an argument. -/
theorem conversion_ptr (h : (conversion c (.ptr :: args')).isSome) (args : List Arg) :
    conversion c args = some ([37,c],args) := by
  unfold conversion at h ⊢
  split_ifs at h ⊢ with h1 h2 h3 h4
  · cases h
  · cases h
  · cases h
  · cases h
  · rfl
end

theorem closes_of_empty (h : vfprintf fmt args = some []) (hp : pointerless fmt) (hn : fmt ≠ []) :
    closes fmt := by
  fun_induction vfprintf fmt args with
  | case1 => exact absurd rfl hn
  | case2 => cases h
  | case3 => exact absurd rfl (pointerless_conversion.mp hp).1
  | case4 => cases h
  | case5 args c fmt _ ih =>
    obtain ⟨⟨s,rest⟩,hs,hr⟩ := Option.bind_eq_some_iff.mp h
    obtain ⟨o,ho,he⟩ := Option.map_eq_some_iff.mp hr
    obtain ⟨rfl,rfl⟩ := append_eq_nil_iff.mp he
    have hc : c = 115 := by
      by_contra hc
      exact conversion_ne_nil hc hs rfl
    rw [closes,if_pos rfl,decide_eq_true hc]
    by_cases hf : fmt = []
    · rw [hf]
      rfl
    · exact Bool.or_eq_true_iff.mpr (.inr (ih rest ho (pointerless_conversion.mp hp).2 hf))
  | case6 =>
    obtain ⟨o,-,he⟩ := Option.map_eq_some_iff.mp h
    cases he

/-- The byte behind the text is the NUL of a string that comes last, or was there before. -/
theorem closed_behind {m : Bytes} {c : BitVec 8} {str : Nat} (h : vfprintf fmt args = some out)
    (hp : pointerless fmt) : (if closes fmt then 0 else
      (if c = 115 then (m.store str s).write8 (str+s.length) 0 else m.store str s)
        (str+s.length+out.length)) =
      if closes (37 :: c :: fmt) then 0 else m (str+s.length+out.length) := by
  rw [closes,if_pos rfl]
  by_cases hcl : closes fmt
  · simp [hcl]
  by_cases hc : c = 115
  · by_cases hf : fmt = []
    · subst hf
      cases h
      simp [hc,closes]
    · have hn : out ≠ [] := fun he => hcl (closes_of_empty (he ▸ h) hp hf)
      have hl := length_pos_iff.mpr hn
      rw [if_pos hc,write8_outside _ _ (by omega),store_outside _ (.inr (by omega))]
      simp [hcl,hf]
  · rw [if_neg hc,store_outside _ (.inr (by omega))]
    rw [decide_eq_false hc,Bool.false_and,Bool.false_or]

theorem prints_of_vfprintf (h : vfprintf fmt args = some out) (hpt : pointerless fmt) :
    Prints fmt args out := by
  fun_induction vfprintf fmt args generalizing out with
  | case1 args =>
    cases h
    exact fun m str => ⟨m,rfl,rfl,fun _ _ => rfl,rfl⟩
  | case2 args =>
    cases h
    refine fun m str => ⟨_,rfl,?_,fun x hx => ?_,write8_same ..⟩
    · rw [length_singleton,load_write8_outside _ _ (.inl le_rfl),← store_singleton]
      exact load_store _ _ _
    · rw [write8_outside _ _ (by omega),write8_outside _ _ (by omega)]
  | case3 fmt args => exact absurd rfl (pointerless_conversion.mp hpt).1
  | case4 => cases h
  | case5 args c fmt _ ih =>
    have hpt := (pointerless_conversion.mp hpt).2
    obtain ⟨⟨s,rest⟩,hs,hr⟩ := Option.bind_eq_some_iff.mp h
    obtain ⟨o,ho,rfl⟩ := Option.map_eq_some_iff.mp hr
    intro m str
    obtain ⟨m',hm,hst⟩ := ih rest ho hpt (if c = 115 then (m.store str s).write8 (str+s.length) 0
      else m.store str s) (str+s.length)
    refine ⟨m',?_,hst.after ?_ (fun x hx => ?_) (closed_behind ho hpt)⟩
    · rw [vsprintf,if_pos rfl,hs,Option.bind_some,length_append,← add_assoc]
      exact hm
    · split_ifs
      · rw [load_write8_outside _ _ (.inl le_rfl),load_store]
      · exact load_store _ _ _
    · split_ifs
      · rw [write8_outside _ _ (by omega),store_outside _ (.inl hx)]
      · exact store_outside _ (.inl hx)
  | case6 c fmt args hc ih =>
    rw [pointerless_cons hc] at hpt
    obtain ⟨o,ho,rfl⟩ := Option.map_eq_some_iff.mp h
    intro m str
    obtain ⟨m',hm,hst⟩ := ih ho hpt (m.store str [c]) (str+[c].length)
    refine ⟨m',?_,?_⟩
    · rw [vsprintf.eq_def]
      simp only [hc,if_false,← store_singleton]
      rw [length_append,← add_assoc]
      exact hm
    · rw [closes_cons hc]
      refine hst.after (load_store _ _ _) (fun x hx => store_outside _ (.inl hx)) ?_
      rw [store_outside _ (.inr (by omega))]

theorem putNumber_eq (val : BitVec 64) : putNumber val = numeral 10 false val.toNat := by
  rw [putNumber,numeral,digits_eq (by decide) _ _ _ (val.isLt.trans (by decide))]
  simp [← BitVec.toNat_inj]

theorem toNat_signExtend {v : BitVec 32} (h : 0 ≤ v.toInt) :
    (v.signExtend 64).toNat = v.toInt.natAbs := by
  have ht : (v.signExtend 64).toInt = v.toInt := BitVec.toInt_signExtend_of_le (by decide)
  rw [BitVec.toInt_eq_toNat_cond] at ht
  split at ht <;> omega

theorem putInt_eq {v : BitVec 32} (hm : v ≠ BitVec.intMin 32) :
    putInt v = sign v.toInt ++ numeral 10 false v.toInt.natAbs := by
  have hn := BitVec.toInt_neg_of_ne_intMin hm
  simp only [putInt,sign,BitVec.slt_iff_toInt_lt,putNumber_eq,BitVec.ofNat_eq_ofNat,
    BitVec.toInt_zero]
  split
  next h => rw [toNat_signExtend (by omega),hn,Int.natAbs_neg,singleton_append]
  next h => rw [toNat_signExtend (by omega),nil_append]

/-- A pointer is stored as text and stays the next argument, so no other one is stored. -/
theorem le_of_vsprintf {m m' : Bytes} {str e : Nat} {args' : List Arg}
    (h : vfprintf fmt args = some out) (hv : vsprintf m str fmt (.ptr :: args') = some (e,m')) :
    str+out.length ≤ e := by
  fun_induction vfprintf fmt args generalizing out m str with
  | case1 | case2 =>
    cases h
    cases hv
    exact le_refl _
  | case3 fmt args ih =>
    have hi := ih h (show vsprintf (m.store str [37,112]) (str+2) fmt _ = _ from hv)
    omega
  | case4 => cases h
  | case5 args c fmt _ ih =>
    rw [vsprintf,if_pos rfl] at hv
    have hc : (conversion c (.ptr :: args')).isSome :=
      Option.isSome_of_isSome_bind (Option.isSome_iff_exists.mpr ⟨_,hv⟩)
    rw [conversion_ptr hc,Option.bind_some] at h hv
    obtain ⟨o,ho,rfl⟩ := Option.map_eq_some_iff.mp h
    rw [length_append,← add_assoc]
    exact ih _ ho hv
  | case6 c fmt args hc ih =>
    obtain ⟨o,ho,rfl⟩ := Option.map_eq_some_iff.mp h
    rw [vsprintf.eq_def] at hv
    simp only [hc,if_false] at hv
    rw [length_append,← add_assoc]
    exact ih ho hv

theorem pointerless_of_vsprintf {m m' : Bytes} {str : Nat} (h : vfprintf fmt args = some out)
    (hv : vsprintf m str fmt args = some (str+out.length,m')) : pointerless fmt := by
  fun_induction vfprintf fmt args generalizing out m str with
  | case1 | case2 => rfl
  | case3 fmt args ih =>
    have hl := le_of_vsprintf h (show vsprintf (m.store str [37,112]) (str+2) fmt _ = _ from hv)
    omega
  | case4 => cases h
  | case5 args c fmt hp ih =>
    obtain ⟨⟨s,rest⟩,hs,hr⟩ := Option.bind_eq_some_iff.mp h
    obtain ⟨o,ho,rfl⟩ := Option.map_eq_some_iff.mp hr
    rw [vsprintf,if_pos rfl,hs,Option.bind_some,length_append,← add_assoc] at hv
    exact pointerless_conversion.mpr ⟨hp,ih rest ho hv⟩
  | case6 c fmt args hc ih =>
    obtain ⟨o,ho,rfl⟩ := Option.map_eq_some_iff.mp h
    rw [vsprintf.eq_def] at hv
    simp only [hc,if_false] at hv
    rw [length_append,← add_assoc] at hv
    rw [pointerless_cons hc]
    exact ih ho hv

/-- What `vfprintf` writes is stored with a NUL behind it, wherever it is put, if the format has no
pointer and ends in a conversion that stores a NUL. -/
theorem vsprintf_agrees_iff (h : vfprintf fmt args = some out) :
    ((∀ m str, ∃ m', vsprintf m str fmt args = some (str+out.length,m') ∧
      m'.load str (out.length+1) = out ++ [0]) ↔ pointerless fmt ∧ closes fmt) ∧
    ∀ v, putInt v = sign v.toInt ++ numeral 10 false v.toInt.natAbs ↔ v ≠ BitVec.intMin 32 := by
  refine ⟨⟨fun hall => ?_,fun ⟨hp,hc⟩ m str => ?_⟩,fun v => ⟨?_,putInt_eq⟩⟩
  · -- Into a buffer without a NUL.
    obtain ⟨m',hv,hl⟩ := hall (fun _ => 1) 0
    have hp := pointerless_of_vsprintf h hv
    obtain ⟨m'',hm,-,-,hz⟩ := prints_of_vfprintf h hp (fun _ => 1) 0
    cases hm.symm.trans hv
    refine ⟨hp,?_⟩
    by_contra hc
    rw [if_neg hc,zero_add] at hz
    rw [load_add,zero_add] at hl
    have h0 := (append_inj' hl rfl).2
    simp [load,hz] at h0
  · obtain ⟨m',hm,hl,-,hz⟩ := prints_of_vfprintf h hp m str
    refine ⟨m',hm,?_⟩
    rw [load_add,hl]
    simp [load,hz,hc]
  · rintro he rfl
    revert he
    decide +kernel

theorem vsprintf_agrees_decimal : ∃ m', vsprintf (fun _ => 1) 8 [37,100,37,115] [.int (-7),.str [33]] =
    some (11,m') ∧ m'.load 8 4 = [45,55,33,0] := by
  have h : vfprintf [37,100,37,115] [.int (-7),.str [33]] = some [45,55,33] := by decide +kernel
  exact (vsprintf_agrees_iff h).1.mpr (by decide) (fun _ => 1) 8

/-- There is no NUL behind the text; a pointer is text for one of the functions; and the least
number is printed with its sign extended. -/
theorem vsprintf_differs :
    ((vsprintf (fun _ => 1) 0 [65] []).map fun x => x.2 1) = some 1 ∧
    vfprintf [37,112] [.ptr] = some [] ∧ ((vsprintf (fun _ => 0) 0 [37,112] [.ptr]).map Prod.fst) = some 2 ∧
    putInt (BitVec.intMin 32) = 45 :: numeral 10 false 18446744071562067968 := by
  decide +kernel
end LensorOS.Libc
