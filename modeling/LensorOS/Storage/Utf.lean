import LensorOS.Storage.FileNames
import LensorOS.Strings.Capacity

/-!
# Conversion between encodings

Code points are appended to a string in UTF-8, byte by byte, and UTF-16 is converted to such a
string. Every byte may ask for a larger buffer, and at the byte `2^22` more is asked for than there
is memory.
-/
namespace LensorOS.Storage.FilePath
open List Framework Strings Store Function
/-- Where a buffer of a length is put, if it is granted. -/
abbrev Allocator := Store → Nat → Option Nat

/-- Buffers up to `2^22` bytes are granted, and none of half the address space. -/
structure Allocator.Bounded (new : Allocator) : Prop where
  small : ∀ s n, n ≤ 2^22 → ∃ p, new s n = some p ∧ s.Fresh p n
  large : ∀ s n, 2^63 ≤ n → new s n = none

/-- The characters of a code point. There are none if it is out of range. -/
def codepointChars (codepoint : Nat) : List (BitVec 8) :=
  let low (k : Nat) := 0x80 ||| codepoint >>> k &&& 0x3f
  map (.ofNat 8) <| if codepoint ≤ 0x7f then [codepoint]
    else if codepoint ≤ 0x7ff then [0xc0 ||| codepoint >>> 6,low 0]
    else if codepoint ≤ 0xffff then [0xe0 ||| codepoint >>> 12,low 6,low 0]
    else if codepoint ≤ 0x10ffff then [0xf0 ||| codepoint >>> 18,low 12,low 6,low 0]
    else []

/-- The bytes of the second surrogate are read as signed characters. -/
def lowSurrogate (lower upper : BitVec 8) : BitVec 16 := lower.signExtend 16 ||| upper.signExtend 16 <<< 8

/-- The code points that are appended for a text. The turn after a surrogate reads the second one
once more. -/
def codepoints : List (BitVec 8) → List Nat
  | lower :: upper :: rest =>
    let codeUnit := lower.toNat ||| upper.toNat <<< 8
    if codeUnit ≤ 0xd7ff ∨ codeUnit > 0xe000 then codeUnit :: codepoints rest
    else
      match rest with
      | lower :: upper :: _ =>
        let lowSurrogate := lowSurrogate lower upper
        if lowSurrogate < 0xd800 ∨ lowSurrogate > 0xdfff then codepoints rest
        else (0x100000+(codeUnit-0xd800) <<< 10 % 2^16+(lowSurrogate-0xdc00).toNat) ::
          codepoints rest
      | _ => []
  | _ => []

section
variable (new : Allocator)
/-- `+=` of a character. The string is the object 0. -/
def appendByte (s : Store) (c : BitVec 8) : Option Store :=
  match s.request (.append 0 [c] 0) with
  | none => s.append 0 [c] 0
  | some (_,n) => (new s n).bind (s.append 0 [c])

def appendCodepointAsUtf8 (appendee : Store) (codepoint : Nat) : Option Store :=
  (codepointChars codepoint).foldlM (appendByte new) appendee

def emptyString : Store := Store.put ⟨fun _ => 0,fun _ => none,[]⟩ 0 .empty

def appendCodepoints (s : List Nat) : Option Store := s.foldlM (appendCodepointAsUtf8 new) emptyString

def utf16ToUtf8 (utf16 : List (BitVec 8)) : Option Store := appendCodepoints new (codepoints utf16)
end

/-- Where a string of `n` characters that is built byte by byte asks for its next buffer. -/
def bound (n : Nat) : Nat := if n < 24 then 24 else if n < 2^13 then 2^13 else 2^22

def Repr.bound : Repr → Nat
  | .small _ _ => 24
  | .large _ _ cap => cap

structure Built (s : Store) (text : List (BitVec 8)) : Prop where
  capped : s.Capped
  contents : s.contents 0 = some text
  bounded : ∀ r ∈ s.objects 0, Repr.bound r = bound text.length

section
variable {new : Allocator} {s s' : Store} {text : List (BitVec 8)} {c : BitVec 8} {r r' : Repr} {p : Nat}
theorem Built.empty : Built emptyString [] := by
  have hs : Started ⟨fun _ => 0,fun _ => none,[]⟩ := ⟨rfl,rfl⟩
  obtain ⟨s,he,ho,-⟩ := hs.owned.construct_yields (i := 0) rfl
  cases he
  exact ⟨⟨ho,nofun⟩,rfl,fun r hr => Option.some.inj hr ▸ rfl⟩

theorem bound_append (hi : s.objects 0 = some r) (hs : s.append 0 [c] p = some s')
    (hr : s'.objects 0 = some r') :
    Repr.bound r' = ((s.request (.append 0 [c] p)).elim (Repr.bound r) fun q => q.2 % 2^63) := by
  rcases r with ⟨data,remCap⟩ | ⟨data,sz,cap⟩ <;> simp only [append,request,hi] at hs ⊢
  · by_cases hf : [c].length ≤ remCap
    · rw [if_pos hf] at hs ⊢
      cases hs
      cases hr
      rfl
    · rw [if_neg hf] at hs ⊢
      obtain ⟨s1,-,rfl⟩ := Option.map_eq_some_iff.mp hs
      cases hr
      rfl
  · split_ifs at hs ⊢
    · cases hs
      cases hr
      rfl
    · obtain ⟨s1,-,hs⟩ := Option.bind_eq_some_iff.mp hs
      obtain ⟨s2,-,rfl⟩ := Option.map_eq_some_iff.mp hs
      cases hr
      rfl

theorem Built.object (h : Built s text) : ∃ r, s.objects 0 = some r ∧ r.size = text.length := by
  obtain ⟨r,hi,rfl⟩ := Option.map_eq_some_iff.mp h.contents
  exact ⟨r,hi,by cases r <;> exact (Bytes.length_load ..).symm⟩

theorem Built.request_eq (h : Built s text) : s.request (.append 0 [c] p) =
    if text.length+1 < bound text.length then none else some (p,newSize (text.length+1)) := by
  obtain ⟨r,hi,hl⟩ := h.object
  rw [← h.bounded r hi,← hl,request,hi]
  cases r with
  | small data remCap =>
    have hle := h.capped.owned.small_le hi
    refine if_congr ?_ rfl rfl
    simp only [Repr.size,Repr.bound,maxCharsSmall,length_singleton] at hle ⊢
    omega
  | large data sz cap => rfl

theorem bound_succ {n : Nat} (hn : n+1 < 2^22) :
    if n+1 < bound n then bound (n+1) = bound n else newSize (n+1) = bound (n+1) := by
  obtain rfl | rfl | h : n = 23 ∨ n = 2^13-1 ∨ n ≠ 23 ∧ n ≠ 2^13-1 := by omega
  · decide
  · decide
  · unfold bound
    split_ifs <;> omega

theorem bound_le (n : Nat) : bound n ≤ 2^22 := by
  unfold bound
  split_ifs <;> decide

theorem Built.appendByte (hnew : new.Bounded) (h : Built s text) (c : BitVec 8)
    (hl : text.length+1 < 2^22) :
    ∃ s', appendByte new s c = some s' ∧ Built s' (text ++ [c]) := by
  have hb := bound_succ hl
  obtain ⟨p,he,hq⟩ : ∃ p, FilePath.appendByte new s c = s.append 0 [c] p ∧
      s.Served (.append 0 [c] p) := by
    rw [FilePath.appendByte]
    simp only [Served,h.request_eq]
    split_ifs at hb ⊢
    · exact ⟨0,rfl,nofun⟩
    · obtain ⟨p,hp,hf⟩ := hnew.small s _ (hb ▸ bound_le _)
      refine ⟨p,congrArg (Option.bind · _) hp,?_⟩
      rintro _ ⟨⟩
      exact hf
  obtain ⟨r,hi,hr⟩ := h.object
  have hg : s.Rounded (.append 0 [c] p) s := by
    refine ⟨⟨Option.isSome_iff_exists.mpr ⟨r,hi⟩,hq⟩,fun r' hr' => ?_⟩
    obtain rfl : r = r' := Option.some.inj (hi.symm.trans hr')
    rw [hr]
    exact hl
  obtain ⟨s',hs,ho,hc⟩ := h.capped.owned.step_yields ⟨hg.1,h.capped.careful hg⟩
  refine ⟨s',he.trans hs,h.capped.step hg hs ho,?_,fun r' hr' => ?_⟩
  · rw [hc,effect,update_self,h.contents]
    rfl
  · rw [bound_append hi hs hr',h.request_eq,h.bounded r hi,length_append,length_singleton]
    split_ifs at hb ⊢
    · exact hb.symm
    · have := bound_le (text.length+1)
      rw [← hb] at this
      exact (Nat.mod_eq_of_lt (by omega)).trans hb

/-- The byte `2^22` asks for more than there is. -/
theorem Built.appendByte_none (hnew : new.Bounded) (h : Built s text) (c : BitVec 8)
    (hl : text.length+1 = 2^22) : FilePath.appendByte new s c = none := by
  have hb := bound_le text.length
  rw [FilePath.appendByte,h.request_eq,if_neg (by omega),hl]
  dsimp only
  rw [hnew.large _ _ (by decide)]
  rfl

theorem Built.append (hnew : new.Bounded) (h : Built s text) (ht : text.length < 2^22)
    (chars : List (BitVec 8)) : if text.length+chars.length < 2^22 then
      ∃ s' ∈ chars.foldlM (FilePath.appendByte new) s, Built s' (text ++ chars)
    else chars.foldlM (FilePath.appendByte new) s = none := by
  induction chars generalizing s text with
  | nil =>
    rw [append_nil,length_nil,add_zero,if_pos ht]
    exact ⟨s,rfl,h⟩
  | cons c chars ih =>
    rw [length_cons]
    by_cases hc : text.length+1 = 2^22
    · rw [if_neg (by omega)]
      exact congrArg (Option.bind · _) (h.appendByte_none hnew c hc)
    · obtain ⟨s1,hs,h1⟩ := h.appendByte hnew c (by omega)
      have hn : (text ++ [c]).length = text.length+1 := length_append
      have hr := ih h1 (by omega)
      rw [hn,append_assoc,add_right_comm,add_assoc] at hr
      rw [foldlM_cons,hs]
      exact hr

theorem appendCodepoints_eq (s : List Nat) : appendCodepoints new s =
    (s.flatMap codepointChars).foldlM (FilePath.appendByte new) emptyString := by
  rw [appendCodepoints]
  generalize emptyString = out
  induction s generalizing out with
  | nil => rfl
  | cons n s ih =>
    rw [flatMap_cons,foldlM_append,foldlM_cons]
    exact congrArg (Option.bind _) (funext ih)

/-- There is a string if its characters are fewer than `2^22`. -/
theorem appendCodepoints_iff (hnew : new.Bounded) {s : List Nat} {text : List (BitVec 8)} :
    (∃ out, appendCodepoints new s = some out ∧ out.contents 0 = some text) ↔
      s.flatMap codepointChars = text ∧ text.length < 2^22 := by
  have hb := Built.empty.append hnew (by decide) (s.flatMap codepointChars)
  rw [length_nil,zero_add,nil_append,← appendCodepoints_eq] at hb
  split at hb
  next hl =>
    obtain ⟨out,ho,hb⟩ := hb
    constructor
    · rintro ⟨out',ho',hc⟩
      cases ho.symm.trans ho'
      cases hb.contents.symm.trans hc
      exact ⟨rfl,hl⟩
    · rintro ⟨rfl,-⟩
      exact ⟨out,ho,hb.contents⟩
  next hl =>
    constructor
    · rintro ⟨out,ho,-⟩
      cases hb.symm.trans ho
    · rintro ⟨rfl,hlt⟩
      exact absurd hlt hl
end

section
variable {n : Nat}
theorem codepointChars_eq (h : n ≤ 0x10ffff) : codepointChars n = utf8 n := by
  have hl (v : Nat) : 0x80 ||| v &&& 0x3f = 0x80+v % 64 := by
    rw [Nat.and_two_pow_sub_one_eq_mod v 6]
    exact (Nat.two_pow_add_eq_or_of_lt (show v % 64 < 2^7 by omega) 1).symm
  simp only [codepointChars,utf8,Nat.shiftRight_eq_div_pow,hl,← Nat.lt_succ_iff]
  split
  · rfl
  split
  · rw [← Nat.two_pow_add_eq_or_of_lt (show n / 2^6 < 2^5 by omega) 6]; simp
  split
  · rw [← Nat.two_pow_add_eq_or_of_lt (show n / 2^12 < 2^4 by omega) 14]; simp
  rw [if_pos (by omega),← Nat.two_pow_add_eq_or_of_lt (show n / 2^18 < 2^3 by omega) 30]
  simp
end

/-- Decoding of UTF-8, surrogates included. The code point that `bits` begin has `need` more bytes,
and a shorter form if it is below `least`. -/
def decode (need bits least : Nat) : List (BitVec 8) → Option (List Nat)
  | [] => if need = 0 then some [] else none
  | b :: rest =>
    let b := b.toNat
    if need = 0 then
      if b < 0x80 then (decode 0 0 0 rest).map (b :: ·)
      else if b < 0xc0 then none
      else if b < 0xe0 then decode 1 (b % 32) 0x80 rest
      else if b < 0xf0 then decode 2 (b % 16) 0x800 rest
      else if b < 0xf8 then decode 3 (b % 8) 0x10000 rest
      else none
    else if b / 64 ≠ 2 then none
    else
      let bits := 64 * bits+b % 64
      if need ≠ 1 then decode (need-1) bits least rest
      else if bits < least ∨ 0x10ffff < bits then none
      else (decode 0 0 0 rest).map (bits :: ·)

section
variable {n : Nat} (rest : List (BitVec 8))
theorem decode_byte {a bits least : Nat} (ha : a < 64) (need : Nat) :
    decode (need+1) bits least (.ofNat 8 (0x80+a) :: rest) =
      if need ≠ 0 then decode need (64 * bits+a) least rest
      else if 64 * bits+a < least ∨ 0x10ffff < 64 * bits+a then none
      else (decode 0 0 0 rest).map ((64 * bits+a) :: ·) := by
  have hb : (0x80+a) % 256 = 0x80+a := by omega
  have hd : (0x80+a) / 64 = 2 := by omega
  have hm : (0x80+a) % 64 = a := by omega
  simp [decode,hb,hd,hm]

theorem decode_utf8 (h : n ≤ 0x10ffff) :
    decode 0 0 0 (utf8 n ++ rest) = (decode 0 0 0 rest).map (n :: ·) := by
  have hm (k : Nat) : k % 64 < 64 := Nat.mod_lt k (by decide)
  unfold utf8
  split_ifs
  · grind [decode]
  all_goals
    simp only [map_cons,map_nil,cons_append,nil_append,decode.eq_2,decode_byte _ (hm _)]
    grind
end

theorem decode_flatMap {s : List Nat} (h : ∀ n ∈ s, n ≤ 0x10ffff) :
    decode 0 0 0 (s.flatMap utf8) = some s := by
  induction s with
  | nil => rfl
  | cons n s ih =>
    obtain ⟨hn,hs⟩ := forall_mem_cons.mp h
    rw [flatMap_cons,decode_utf8 _ hn,ih hs]
    rfl

theorem utf8_injective {s t : List Nat} (hs : ∀ n ∈ s, n ≤ 0x10ffff) (ht : ∀ n ∈ t, n ≤ 0x10ffff)
    (h : s.flatMap utf8 = t.flatMap utf8) : s = t := by
  have hd := decode_flatMap hs
  rw [h,decode_flatMap ht] at hd
  exact (Option.some.inj hd).symm

theorem flatMap_codepointChars {s : List Nat} (h : ∀ n ∈ s, n ≤ 0x10ffff) :
    s.flatMap codepointChars = s.flatMap utf8 := flatMap_congr fun n hn => codepointChars_eq (h n hn)

/-- Appended code points are decoded again, and no other ones give their string, if UTF-8 has fewer
than `2^22` bytes for them. -/
theorem appendCodepoints_unique_iff {new : Allocator} (hnew : new.Bounded) {s : List Nat}
    (hs : ∀ n ∈ s, n ≤ 0x10ffff) :
    (∃ out text, appendCodepoints new s = some out ∧ out.contents 0 = some text ∧
      decode 0 0 0 text = some s ∧ ∀ t out', (∀ n ∈ t, n ≤ 0x10ffff) →
        appendCodepoints new t = some out' → out'.contents 0 = some text → t = s) ↔
      (s.flatMap utf8).length < 2^22 := by
  constructor
  · rintro ⟨out,text,ho,hc,-,-⟩
    obtain ⟨he,hl⟩ := (appendCodepoints_iff hnew).mp ⟨out,ho,hc⟩
    rwa [← flatMap_codepointChars hs,he]
  · intro hl
    obtain ⟨out,ho,hc⟩ := (appendCodepoints_iff hnew).mpr ⟨flatMap_codepointChars hs,hl⟩
    refine ⟨out,_,ho,hc,decode_flatMap hs,fun t out' ht ho' hc' => ?_⟩
    obtain ⟨he,-⟩ := (appendCodepoints_iff hnew).mp ⟨out',ho',hc'⟩
    exact utf8_injective ht hs ((flatMap_codepointChars ht).symm.trans he)

/-- Memory behind all blocks, below half the address space. -/
def allocateBehind : Allocator := fun s n =>
  if n < 2^63 then some (s.blocks.foldr (fun x top => max (x.1+x.2) top) 0) else none

theorem allocateBehind_bounded : Allocator.Bounded allocateBehind where
  small s n hn := by
    refine ⟨_,if_pos (hn.trans_lt (by decide)),fun x hx => .inr ?_⟩
    generalize s.blocks = blocks at hx ⊢
    induction blocks with
    | nil => cases hx
    | cons y blocks ih =>
      rcases mem_cons.mp hx with rfl | hx
      · exact Nat.le_max_left ..
      · exact (ih hx).trans (Nat.le_max_right ..)
  large s n hn := if_neg (not_lt.mpr hn)

theorem appendCodepoints_unique_plane : ∃ out text,
    appendCodepoints allocateBehind [0x10ffff,0xd800] = some out ∧ out.contents 0 = some text ∧
      decode 0 0 0 text = some [0x10ffff,0xd800] := by
  obtain ⟨out,text,ho,hc,hd,-⟩ :=
    (appendCodepoints_unique_iff allocateBehind_bounded (s := [0x10ffff,0xd800]) (by decide)).mpr (by decide)
  exact ⟨out,text,ho,hc,hd⟩

/-- The string with `2^22` characters is not built. -/
theorem appendCodepoints_refused : appendCodepoints allocateBehind (replicate (2^22) 0x61) = none := by
  have hl : (flatMap codepointChars (replicate (2^22) 0x61)).length = 2^22 := by
    rw [length_flatMap,map_replicate,sum_replicate]
    rfl
  rw [appendCodepoints_eq]
  refine (if_neg ?_).mp (Built.empty.append allocateBehind_bounded (by decide) _)
  rw [hl]
  decide

/-- The code points that the conversion gives back. -/
def Kept (n : Nat) : Prop := n ≤ 0xd7ff ∨ 0xe000 < n ∧ n < 0x10000 ∨ 0x100000 ≤ n ∧ n % 256 < 0x80

instance : DecidablePred Kept := fun n => inferInstanceAs (Decidable (n ≤ 0xd7ff ∨ _ ∨ _))

theorem or_bytes (lower upper : BitVec 8) :
    lower.toNat ||| upper.toNat <<< 8 = lower.toNat+256 * upper.toNat := by
  rw [Nat.or_comm,Nat.shiftLeft_eq,Nat.mul_comm,← Nat.two_pow_add_eq_or_of_lt lower.isLt]
  omega

section
variable {lower upper : BitVec 8}
theorem toNat_lowSurrogate (h : lower.toNat < 0x80) :
    (lowSurrogate lower upper).toNat = lower.toNat+256 * upper.toNat := by
  have hl : ∀ b : BitVec 8, b.toNat < 0x80 → (b.signExtend 16).toNat = b.toNat := by decide
  have hu : ∀ b : BitVec 8, (b.signExtend 16 <<< 8).toNat = b.toNat <<< 8 := by decide
  rw [lowSurrogate,BitVec.toNat_or,hl lower h,hu,or_bytes]

/-- The sign of a lower byte fills the upper one. -/
theorem le_lowSurrogate (h : 0x80 ≤ lower.toNat) : 0xff00 ≤ (lowSurrogate lower upper).toNat := by
  have hl : ∀ b : BitVec 8, 0x80 ≤ b.toNat → 0xff00 ≤ (b.signExtend 16).toNat := by decide
  rw [lowSurrogate,BitVec.toNat_or]
  exact (hl lower h).trans Nat.left_le_or
end

theorem outside_iff (x : BitVec 16) : x < 0xd800 ∨ x > 0xdfff ↔ x.toNat < 0xd800 ∨ 0xdfff < x.toNat := Iff.rfl

theorem codepoints_kept : ∀ (text : List (BitVec 8)), ∀ n ∈ codepoints text, n ≤ 0x10ffff → Kept n
  | [] | [_] => fun _ h => absurd h not_mem_nil
  | lower :: upper :: rest => by
    have ih := codepoints_kept rest
    rw [codepoints.eq_def]
    dsimp only
    split
    next hu =>
      refine forall_mem_cons.mpr ⟨fun _ => ?_,ih⟩
      rw [or_bytes] at hu ⊢
      exact hu.imp id fun h => .inl ⟨h,by omega⟩
    split
    next lower2 upper2 rest =>
      split
      · exact ih
      next hlow =>
      refine forall_mem_cons.mpr ⟨fun _ => .inr (.inr ⟨by omega,?_⟩),ih⟩
      rw [outside_iff] at hlow
      have hb : lower2.toNat < 0x80 := by
        by_contra hb
        have hle := @le_lowSurrogate lower2 upper2 (not_lt.mp hb)
        omega
      rw [BitVec.toNat_sub,toNat_lowSurrogate hb,Nat.shiftLeft_eq,
        show (0xdc00 : BitVec 16).toNat = 0xdc00 from rfl]
      omega
    next => exact fun _ h => absurd h not_mem_nil

section
variable {n : Nat} {rest : List (BitVec 8)}
theorem unit_bytes (h : n < 2^16) : ∃ lower upper : BitVec 8,
    codepointBytes (.ofNat 16 n) = [lower,upper] ∧ lower.toNat = n % 256 ∧
      lower.toNat ||| upper.toNat <<< 8 = n := by
  refine ⟨_,_,rfl,by simp,?_⟩
  rw [or_bytes]
  simp [Nat.shiftRight_eq_div_pow]
  omega

theorem codepoints_single (h : n ≤ 0xd7ff ∨ 0xe000 < n ∧ n < 2^16) :
    codepoints (codepointBytes (.ofNat 16 n) ++ rest) = n :: codepoints rest := by
  obtain ⟨lower,upper,hb,-,hv⟩ := unit_bytes (n := n) (by omega)
  rw [hb,cons_append,cons_append,nil_append,codepoints.eq_def]
  dsimp only
  rw [hv,if_pos (h.imp id And.left)]

/-- What follows a second surrogate is not taken for another one. -/
def Harmless : List (BitVec 8) → Prop
  | lower :: upper :: _ => lowSurrogate lower upper < 0xd800 ∨ lowSurrogate lower upper > 0xdfff
  | [] => True
  | [_] => False

theorem codepoints_skipped (hn : 0xd7ff < n ∧ n ≤ 0xe000) (h : Harmless rest) :
    codepoints (codepointBytes (.ofNat 16 n) ++ rest) = codepoints rest := by
  obtain ⟨lower,upper,hb,-,hv⟩ := unit_bytes (n := n) (by omega)
  have hc : ¬ (n ≤ 0xd7ff ∨ n > 0xe000) := by omega
  rw [hb,cons_append,cons_append,nil_append,codepoints.eq_def]
  dsimp only
  rw [hv,if_neg hc]
  match rest, h with
  | [], _ => rfl
  | lower :: upper :: rest, h => exact if_pos h

theorem codepoints_pair (hn : 0x100000 ≤ n ∧ n ≤ 0x10ffff) (hlow : n % 256 < 0x80) (h : Harmless rest) :
    codepoints (utf16 n ++ rest) = n :: codepoints rest := by
  obtain ⟨lower,upper,hb,-,hv⟩ := unit_bytes (n := 0xd800+(n-0x10000) / 0x400) (by omega)
  obtain ⟨lower2,upper2,hb2,hl2,hv2⟩ := unit_bytes (n := 0xdc00+n % 0x400) (by omega)
  have hs : (lowSurrogate lower2 upper2).toNat = 0xdc00+n % 0x400 := by
    rw [toNat_lowSurrogate (by omega),← or_bytes,hv2]
  have hin : ¬ (lowSurrogate lower2 upper2 < 0xd800 ∨ lowSurrogate lower2 upper2 > 0xdfff) := by
    rw [outside_iff,hs]
    omega
  have he : 0x100000+(0xd800+(n-0x10000) / 0x400-0xd800) <<< 10 % 2^16+
      (lowSurrogate lower2 upper2-0xdc00).toNat = n := by
    rw [BitVec.toNat_sub,hs,Nat.shiftLeft_eq,show (0xdc00 : BitVec 16).toNat = 0xdc00 from rfl]
    omega
  have hk := codepoints_skipped (n := 0xdc00+n % 0x400) (by omega) h
  rw [hb2] at hk
  rw [utf16,if_neg (by omega),flatMap_cons,flatMap_singleton,hb,hb2]
  rw [append_assoc,cons_append,cons_append,nil_append,codepoints.eq_def]
  dsimp only
  rw [hv,if_neg (by omega)]
  refine (if_neg hin).trans ?_
  rw [he]
  exact congrArg (n :: ·) hk

theorem harmless_utf16 (hk : Kept n) (hn : n ≤ 0x10ffff) : Harmless (utf16 n ++ rest) := by
  have hunit : ∀ m, m < 2^16 → (m ≤ 0xd7ff ∨ 0xdfff < m ∨ 0x80 ≤ m % 256) → ∀ rest,
      Harmless (codepointBytes (.ofNat 16 m) ++ rest) := by
    intro m hm hout rest
    obtain ⟨lower,upper,hb,hl,hv⟩ := unit_bytes hm
    rw [or_bytes] at hv
    rw [hb]
    refine (outside_iff _).mpr ?_
    by_cases hs : lower.toNat < 0x80
    · rw [toNat_lowSurrogate hs]
      omega
    · exact .inr (lt_of_lt_of_le (by decide) (le_lowSurrogate (not_lt.mp hs)))
  unfold Kept at hk
  rw [utf16]
  split
  · rw [flatMap_singleton]
    exact hunit n (by omega) (by omega) rest
  · rw [flatMap_cons,append_assoc]
    exact hunit _ (by omega) (by omega) _
end

theorem codepoints_flatMap {s : List Nat} (hs : ∀ n ∈ s, n ≤ 0x10ffff) (hk : ∀ n ∈ s, Kept n) :
    codepoints (s.flatMap utf16) = s := by
  induction s with
  | nil => rfl
  | cons n s ih =>
    obtain ⟨hn,hs⟩ := forall_mem_cons.mp hs
    obtain ⟨hkn,hk⟩ := forall_mem_cons.mp hk
    have hh : Harmless (s.flatMap utf16) := by
      cases s with
      | nil => trivial
      | cons m s => exact harmless_utf16 (hk m mem_cons_self) (hs m mem_cons_self)
    rw [flatMap_cons]
    rcases or_assoc.mpr hkn with h | h
    · rw [utf16,if_pos (by omega),flatMap_singleton,codepoints_single h,ih hs hk]
    · rw [codepoints_pair ⟨h.1,hn⟩ h.2 hh,ih hs hk]

/-- Code points out of range have no characters. -/
theorem flatMap_filter_codepointChars (s : List Nat) :
    (s.filter (· ≤ 0x10ffff)).flatMap codepointChars = s.flatMap codepointChars := by
  induction s with
  | nil => rfl
  | cons n s ih =>
    by_cases hn : n ≤ 0x10ffff
    · rw [filter_cons_of_pos (by simpa using hn),flatMap_cons,flatMap_cons,ih]
    · have he : codepointChars n = [] := by
        rw [codepointChars,if_neg (by omega),if_neg (by omega),if_neg (by omega),if_neg hn]
        rfl
      rw [filter_cons_of_neg (by simpa using hn),flatMap_cons,he,nil_append,ih]

/-- The text in UTF-8 is returned if all its code points are kept and it has fewer than `2^22`
bytes. -/
theorem utf16ToUtf8_iff {new : Allocator} (hnew : new.Bounded) {s : List Nat}
    (hs : ∀ n ∈ s, n ≤ 0x10ffff) :
    (∃ out, utf16ToUtf8 new (s.flatMap utf16) = some out ∧ out.contents 0 = some (s.flatMap utf8)) ↔
      (∀ n ∈ s, Kept n) ∧ (s.flatMap utf8).length < 2^22 := by
  rw [utf16ToUtf8,appendCodepoints_iff hnew]
  refine and_congr_left fun _ => ⟨fun he => ?_,fun hk => ?_⟩
  · have hv : ∀ n ∈ (codepoints (s.flatMap utf16)).filter (· ≤ 0x10ffff), n ≤ 0x10ffff :=
      fun n hn => of_decide_eq_true (mem_filter.mp hn).2
    rw [← flatMap_filter_codepointChars,flatMap_codepointChars hv] at he
    rw [← utf8_injective hv hs he]
    exact fun n hn => codepoints_kept _ n (mem_filter.mp hn).1 (hv n hn)
  · rw [codepoints_flatMap hs hk,flatMap_codepointChars hs]

theorem utf16ToUtf8_euro : ∃ out,
    utf16ToUtf8 allocateBehind [0xac,0x20,0x61,0x00,0xc0,0xdb,0x41,0xdc] = some out ∧
      out.contents 0 = some [0xe2,0x82,0xac,0x61,0xf4,0x80,0x81,0x81] :=
  (utf16ToUtf8_iff allocateBehind_bounded (s := [0x20ac,0x61,0x100041]) (by decide)).mpr (by decide)

/-- U+10000 becomes U+100000. -/
theorem utf16ToUtf8_linear : ∃ out, utf16ToUtf8 allocateBehind (utf16 0x10000) = some out ∧
    out.contents 0 = some (utf8 0x100000) ∧ utf8 0x100000 ≠ utf8 0x10000 := by
  obtain ⟨out,ho,hc⟩ := (@appendCodepoints_iff _ allocateBehind_bounded (codepoints (utf16 0x10000))
    (utf8 0x100000)).mpr (by decide)
  exact ⟨out,ho,hc,by decide⟩
end LensorOS.Storage.FilePath
