import LensorOS.Storage.FileReads

/-!
# File names

The name that a directory shows for a short entry, the entry that a name is translated to, and the
translation of a name from UTF-8 to UTF-16.
-/
namespace LensorOS.Storage.FilePath
open List
def toLower (c : BitVec 8) : BitVec 8 := if 65 ≤ c.toNat ∧ c.toNat ≤ 90 then c+32 else c

/-- Trailing spaces are erased, from the last character on. The last character of an empty
string is read outside it. -/
def stripBack : List (BitVec 8) → Option (List (BitVec 8))
  | [] => none
  | c :: rest => if c = space then stripBack rest else some (c :: rest)

def strip (s : List (BitVec 8)) : Option (List (BitVec 8)) := (stripBack s.reverse).map reverse

def shownName (filename : List (BitVec 8)) : Option (List (BitVec 8)) :=
  if filename.length = 11 then do
    let filename := filename.map toLower
    let name ← strip (filename.take 8)
    let extension ← strip ((filename.drop 8).take 3)
    if extension ≠ [] then some (name ++ [period] ++ extension) else some name
  else some filename

def padded (n : Nat) (s : List (BitVec 8)) : List (BitVec 8) := s ++ replicate (n-s.length) space

structure ShortEntry where
  base : List (BitVec 8)
  extension : List (BitVec 8)
  base_pos : base ≠ []
  base_le : base.length ≤ 8
  extension_le : extension.length ≤ 3
  legal : ∀ c ∈ base ++ extension, c ≠ space ∧ c ≠ period ∧ ¬ (97 ≤ c.toNat ∧ c.toNat ≤ 122)

def ShortEntry.bytes (e : ShortEntry) : List (BitVec 8) := padded 8 e.base ++ padded 3 e.extension

section
variable {s : List (BitVec 8)} {n : Nat}
theorem length_padded (h : s.length ≤ n) : (padded n s).length = n := by
  rw [padded,length_append,length_replicate]
  omega

theorem map_toUpper_toLower (h : ∀ c ∈ s, ¬ (97 ≤ c.toNat ∧ c.toNat ≤ 122)) : (s.map toLower).map toUpper = s := by
  have hb : ∀ c : BitVec 8, ¬ (97 ≤ c.toNat ∧ c.toNat ≤ 122) → toUpper (toLower c) = c := by decide
  rw [map_map]
  conv_rhs => rw [← map_id s]
  exact map_congr_left fun c hc => hb c (h c hc)

theorem stripBack_spaces (k : Nat) (rest : List (BitVec 8)) :
    stripBack (replicate k space ++ rest) = stripBack rest := by
  induction k with
  | zero => rfl
  | succ k ih => rw [replicate_succ,cons_append,stripBack,if_pos rfl,ih]

theorem strip_padded (hs : s ≠ []) (h : ∀ c ∈ s, c ≠ space) :
    strip ((padded n s).map toLower) = some (s.map toLower) := by
  have hb : ∀ c : BitVec 8, c ≠ space → toLower c ≠ space := by decide
  obtain ⟨s,c,rfl⟩ := (eq_nil_or_concat' s).resolve_left hs
  have hc := hb c (h c (by simp))
  have hsp : toLower space = space := by decide
  rw [strip,padded,map_append,map_replicate,hsp,reverse_append,reverse_replicate,
    stripBack_spaces,map_append,reverse_append]
  simp [stripBack,hc]

theorem strip_empty : strip ((padded n []).map toLower) = none := by
  have hsp : toLower space = space := by decide
  have hs := stripBack_spaces n []
  rw [append_nil] at hs
  simp [strip,padded,hsp,hs,stripBack]

theorem translate_dotted {shown base extension : List (BitVec 8)}
    (hsh : shown.map toUpper = base ++ period :: extension) (hba : base.length ≤ 8)
    (hext : extension.length ≤ 3) (hdo : ∀ c ∈ extension, c ≠ period) :
    translateFilename shown = padded 8 base ++ padded 3 extension := by
  have hl : (base ++ period :: extension).length = base.length+1+extension.length := by
    simp
    omega
  rw [translateFilename,hsh]
  split
  · next hfu =>
    have hb : base.length = 8 := by omega
    have he : extension.length = 3 := by omega
    rw [eraseIdx_append_of_length_le (by omega),hb]
    simp [padded,hb,he]
  rw [if_pos (by omega)]
  have hf : (base ++ period :: extension).reverse.findIdx? (· == period) = some extension.length := by
    rw [reverse_append,reverse_cons,append_assoc,findIdx?_append,findIdx?_eq_none_iff.mpr]
    · simp [findIdx?_cons]
    · intro c hc
      simpa using hdo c (mem_reverse.mp hc)
  rw [hf]
  dsimp only
  have hd : (base ++ period :: extension).length-1-extension.length = base.length := by omega
  have hs : [space,space,space] = replicate 3 space := rfl
  rw [hd,if_neg (by omega),take_left' rfl,drop_append,drop_of_length_le (by omega),
    Nat.add_sub_cancel_left,nil_append,drop_succ_cons,drop_zero,hs,take_append,
    take_of_length_le hext,take_replicate,Nat.min_eq_left (by omega)]
  rfl
end

/-- The shown name leads back to the entry exactly if the entry has an extension. -/
theorem shownName_iff (e : ShortEntry) :
    (∃ shown, shownName e.bytes = some shown ∧ translateFilename shown = e.bytes) ↔
      e.extension ≠ [] := by
  have hb := length_padded e.base_le
  have he := length_padded e.extension_le
  have hn : shownName e.bytes = (strip ((padded 8 e.base).map toLower)).bind fun name =>
      (strip ((padded 3 e.extension).map toLower)).bind fun extension =>
        if extension ≠ [] then some (name ++ [period] ++ extension) else some name := by
    rw [shownName,ShortEntry.bytes,if_pos (by rw [length_append,hb,he]),map_append]
    dsimp only
    rw [take_left' (by rw [length_map,hb]),drop_left' (by rw [length_map,hb]),
      take_of_length_le (by rw [length_map,he])]
    rfl
  rw [hn,strip_padded e.base_pos fun c hc => (e.legal c (mem_append_left _ hc)).1]
  constructor
  · rintro ⟨shown,hs,-⟩ hni
    rw [hni,strip_empty] at hs
    cases hs
  intro hne
  rw [strip_padded hne fun c hc => (e.legal c (mem_append_right _ hc)).1]
  refine ⟨_,if_pos (by simpa using hne),translate_dotted ?_ e.base_le e.extension_le
    fun c hc => (e.legal c (mem_append_right _ hc)).2.1⟩
  rw [append_assoc,map_append,singleton_append,map_cons,
    map_toUpper_toLower fun c hc => (e.legal c (mem_append_left _ hc)).2.2,
    map_toUpper_toLower fun c hc => (e.legal c (mem_append_right _ hc)).2.2]
  rfl

/-- The extension of the entry `A` is all spaces: the last of no characters is read. -/
theorem shownName_no_extension : shownName (ShortEntry.bytes ⟨[0x41],[],by decide,by decide,
    by decide,by decide⟩) = none := by decide

/-- The bytes of a code point in UTF-8. -/
def utf8 (n : Nat) : List (BitVec 8) := map (.ofNat 8) <| if n < 0x80 then [n]
  else if n < 0x800 then [0xc0+n / 64,0x80+n % 64]
  else if n < 0x10000 then [0xe0+n / 4096,0x80+n / 64 % 64,0x80+n % 64]
  else [0xf0+n / 2^18,0x80+n / 4096 % 64,0x80+n / 64 % 64,0x80+n % 64]

/-- The bytes of a code point in UTF-16. -/
def utf16 (n : Nat) : List (BitVec 8) := flatMap (fun n => codepointBytes (.ofNat 16 n)) <|
  if n < 0x10000 then [n] else [0xd800+(n-0x10000) / 0x400,0xdc00+n % 0x400]

theorem shift_ofNat (k a : Nat) : BitVec.ofNat 32 a <<< k = BitVec.ofNat 32 (2^k * a) := by
  apply BitVec.eq_of_toNat_eq
  simp [Nat.shiftLeft_eq,Nat.mul_comm]

/-- A continuation byte adds its six bits. -/
theorem or_piece (k m : Nat) {a : Nat} (h : a < 64) : BitVec.ofNat 32 (2^(k+6) * m) |||
    piece (.ofNat 8 (0x80+a)) 0x3f k = .ofNat 32 (2^k * (64 * m+a)) := by
  have hb : ∀ a < 64, (BitVec.ofNat 8 (0x80+a)).setWidth 32 &&& 0x3f = BitVec.ofNat 32 a := by
    decide
  have hl : 2^k * a < 2^(k+6) := by
    rw [Nat.pow_add]
    exact Nat.mul_lt_mul_of_pos_left h (Nat.two_pow_pos k)
  rw [piece,hb a h,shift_ofNat,← BitVec.ofNat_or,← Nat.two_pow_add_eq_or_of_lt hl,
    Nat.pow_add,Nat.mul_add,Nat.mul_assoc]

theorem codepointBytes_eq {n : Nat} {x : BitVec 32} (h : x = .ofNat 32 n) (hn : n < 0x10000) :
    codepointBytes (x.setWidth 16) = utf16 n := by
  rw [h,BitVec.setWidth_ofNat_of_le (by decide),utf16,if_pos hn]
  rfl

/-- What a code point is translated to: the upper ten bits of a pair are not shifted down. -/
def translated (n : Nat) : List (BitVec 8) := flatMap (fun n => codepointBytes (.ofNat 16 n)) <|
  if n < 0x10000 then [n] else [0xd800+(n-0x10000) / 0x400 * 0x400,0xdc00+n % 0x400]

theorem translated_length (n : Nat) : (translated n).length = (utf16 n).length := by
  unfold translated utf16
  split <;> simp [codepointBytes]

theorem translated_eq_iff {n : Nat} (h : n ≤ 0x10ffff) : translated n = utf16 n ↔ n < 0x10400 := by
  have hu : ∀ x y : BitVec 16, codepointBytes x = codepointBytes y → x = y := by
    intro x y hxy
    obtain ⟨hl,hh⟩ : x.setWidth 8 = y.setWidth 8 ∧ (x >>> 8).setWidth 8 = (y >>> 8).setWidth 8 := by
      simpa [codepointBytes] using hxy
    have hl := congrArg BitVec.toNat hl
    have hh := congrArg BitVec.toNat hh
    simp only [BitVec.toNat_setWidth,BitVec.toNat_ushiftRight,Nat.shiftRight_eq_div_pow] at hl hh
    exact BitVec.eq_of_toNat_eq (by omega)
  unfold translated utf16
  by_cases hl : n < 0x10000
  · rw [if_pos hl,if_pos hl]
    exact iff_of_true rfl (by omega)
  rw [if_neg hl,if_neg hl]
  constructor
  · intro heq
    simp only [flatMap_cons] at heq
    have hf := hu _ _ (append_inj heq (by simp [codepointBytes])).1
    have hn := congrArg BitVec.toNat hf
    obtain ⟨k,rfl⟩ := Nat.exists_eq_add_of_le (not_lt.mp hl)
    rw [BitVec.toNat_ofNat,BitVec.toNat_ofNat,Nat.add_sub_cancel_left] at hn
    omega
  · intro hlt
    have hz : (n-0x10000) / 0x400 = 0 := by omega
    rw [hz]

theorem toUtf16_utf8 {n : Nat} (h : n ≤ 0x10ffff) (rest : List (BitVec 8)) :
    toUtf16 (utf8 n ++ rest) = translated n ++ toUtf16 rest := by
  have heq : n < 0x10400 → utf16 n = translated n := fun hn => ((translated_eq_iff h).mpr hn).symm
  unfold utf8
  split
  · next h1 =>
    have hb : ∀ a < 0x80, BitVec.ofNat 8 a &&& 0x80 = 0 ∧ utf16 a = [BitVec.ofNat 8 a,0] := by
      decide
    rw [← heq (by omega),(hb n h1).2]
    exact (toUtf16.eq_def _).trans (if_pos (hb n h1).1)
  split
  · have hb : ∀ a < 32, let c := BitVec.ofNat 8 (0xc0+a); ¬ c &&& 0x80 = 0 ∧
        ¬ c &&& 0xf8 = 0xf0 ∧ ¬ c &&& 0xf0 = 0xe0 ∧ c &&& 0xe0 = 0xc0 ∧
        c.setWidth 32 &&& 0x1f = BitVec.ofNat 32 a := by decide
    obtain ⟨h1,h4,h3,h2,hl⟩ := hb (n / 64) (by omega)
    rw [← heq (by omega)]
    refine (toUtf16.eq_def _).trans <| (if_neg h1).trans <| (if_neg h4).trans <|
      (if_neg h3).trans <| (if_pos h2).trans <| congrArg (· ++ _) (codepointBytes_eq ?_ (by omega))
    rw [piece,hl,shift_ofNat,or_piece 0 _ (by omega)]
    congr 1
    omega
  split
  · have hb : ∀ a < 16, let c := BitVec.ofNat 8 (0xe0+a); ¬ c &&& 0x80 = 0 ∧
        ¬ c &&& 0xf8 = 0xf0 ∧ c &&& 0xf0 = 0xe0 ∧ c.setWidth 32 &&& 0xf = BitVec.ofNat 32 a := by
      decide
    obtain ⟨h1,h4,h3,hl⟩ := hb (n / 4096) (by omega)
    rw [← heq (by omega)]
    refine (toUtf16.eq_def _).trans <| (if_neg h1).trans <| (if_neg h4).trans <|
      (if_pos h3).trans <| congrArg (· ++ _) (codepointBytes_eq ?_ (by omega))
    rw [piece,hl,shift_ofNat,or_piece 6 _ (by omega),or_piece 0 _ (by omega)]
    congr 1
    omega
  have hb : ∀ a < 8, let c := BitVec.ofNat 8 (0xf0+a); ¬ c &&& 0x80 = 0 ∧ c &&& 0xf8 = 0xf0 ∧
      c.setWidth 32 &&& 7 = BitVec.ofNat 32 a := by decide
  obtain ⟨h1,h4,hl⟩ := hb (n / 2^18) (by omega)
  have hj : piece (.ofNat 8 (0xf0+n / 2^18)) 7 18 ||| piece (.ofNat 8 (0x80+n / 4096 % 64)) 0x3f 12 |||
      piece (.ofNat 8 (0x80+n / 64 % 64)) 0x3f 6 ||| piece (.ofNat 8 (0x80+n % 64)) 0x3f 0 =
      .ofNat 32 n := by
    rw [piece,hl,shift_ofNat,or_piece 12 _ (by omega),or_piece 6 _ (by omega),or_piece 0 _ (by omega)]
    congr 1
    omega
  refine (toUtf16.eq_def _).trans <| (if_neg h1).trans <| (if_pos h4).trans <|
    congrArg (· ++ _) ?_
  rw [hj,translated,if_neg (by omega)]
  have ha : BitVec.ofNat 32 n-0x10000 = .ofNat 32 (n-0x10000) := by bv_omega
  have hle : ((0xd800 : BitVec 32)+(BitVec.ofNat 32 n-(0x10000 : BitVec 32) &&& (0x3ff : BitVec 32) <<< 10)).setWidth 16 =
      BitVec.ofNat 16 (0xd800+(n-0x10000) / 0x400 * 0x400) := by
    have hm : ((0x3ff : BitVec 32) <<< 10).toNat = 2^10 * (2^10-1) := by decide
    have hd : (0xd800 : BitVec 32).toNat = 0xd800 := rfl
    apply BitVec.eq_of_toNat_eq
    rw [ha,BitVec.toNat_setWidth,BitVec.toNat_add,BitVec.toNat_and,hm,hd,Framework.and_mask]
    simp only [BitVec.toNat_ofNat]
    omega
  have htr : ((0xdc00 : BitVec 32)+(BitVec.ofNat 32 n-(0x10000 : BitVec 32) &&& 0x3ff)).setWidth 16 =
      BitVec.ofNat 16 (0xdc00+n % 0x400) := by
    have hm : (0x3ff : BitVec 32).toNat = 2^10-1 := by decide
    have hd : (0xdc00 : BitVec 32).toNat = 0xdc00 := rfl
    apply BitVec.eq_of_toNat_eq
    rw [ha,BitVec.toNat_setWidth,BitVec.toNat_add,BitVec.toNat_and,hm,hd,Nat.and_two_pow_sub_one_eq_mod]
    simp only [BitVec.toNat_ofNat]
    omega
  exact congrArg₂ (fun x y => codepointBytes x ++ codepointBytes y) hle htr

theorem toUtf16_flatMap {name : List Nat} (h : ∀ n ∈ name, n ≤ 0x10ffff) :
    toUtf16 (name.flatMap utf8) = name.flatMap translated := by
  induction name with
  | nil => rfl
  | cons n name ih =>
    obtain ⟨hn,hna⟩ := forall_mem_cons.mp h
    rw [flatMap_cons,flatMap_cons,toUtf16_utf8 hn,ih hna]

/-- A name of nine to twelve bytes without a period is translated to UTF-16 exactly if all its
characters lie below U+10400. -/
theorem translateFilename_utf16_iff {name : List Nat} (hlow : 8 < (name.flatMap utf8).length)
    (hhigh : (name.flatMap utf8).length ≤ 12) (hdot : period ∉ name.flatMap utf8)
    (hvalid : ∀ n ∈ name, n ≤ 0x10ffff) :
    translateFilename (name.flatMap utf8) = name.flatMap utf16 ↔ ∀ n ∈ name, n < 0x10400 := by
  have hu : ∀ c : BitVec 8, toUpper c = period → c = period := by decide
  have hn : ∀ c ∈ (name.flatMap utf8).map toUpper, c ≠ period := by
    rintro _ hm rfl
    obtain ⟨c,hc,he⟩ := mem_map.mp hm
    exact hdot (hu c he ▸ hc)
  have hf : ((name.flatMap utf8).map toUpper).reverse.findIdx? (· == period) = none :=
    findIdx?_eq_none_iff.mpr fun c hc => beq_false_of_ne (hn c (mem_reverse.mp hc))
  unfold translateFilename
  rw [if_neg fun hc => hn _ (mem_of_getElem? hc.2) rfl,length_map,if_pos hhigh,hf]
  dsimp only
  rw [if_pos hlow,toUtf16_flatMap hvalid]
  clear hlow hhigh hdot hn hf
  induction name with
  | nil => simp
  | cons n name ih =>
    obtain ⟨hv,hvs⟩ := forall_mem_cons.mp hvalid
    rw [flatMap_cons,flatMap_cons,forall_mem_cons]
    refine Iff.trans ?_ (and_congr (translated_eq_iff hv) (ih hvs))
    exact ⟨fun h => append_inj h (translated_length n),fun ⟨hn,hs⟩ => by rw [hn,hs]⟩

/-- The nine bytes of three times U+20AC, the Euro sign. -/
theorem translateFilename_euro : translateFilename (flatMap utf8 [0x20ac,0x20ac,0x20ac]) =
    [0xac,0x20,0xac,0x20,0xac,0x20] :=
  (translateFilename_utf16_iff (by decide) (by decide) (by decide) (by decide)).mpr (by decide)

/-- The leading surrogate of U+1F600 is wrong. -/
theorem translateFilename_smile : (flatMap utf8 [0x1f600,0x61,0x61,0x61,0x61,0x61]).length = 9 ∧
    (translateFilename (flatMap utf8 [0x1f600,0x61,0x61,0x61,0x61,0x61])).take 4 =
      [0x00,0xcc,0x00,0xde] ∧ utf16 0x1f600 = [0x3d,0xd8,0x00,0xde] := by decide
end LensorOS.Storage.FilePath
