import Mathlib.Algebra.Group.Nat.Defs
import Mathlib.Data.List.Infix

/-!
# Searching

`memmem` goes from one byte that could begin the needle to the next; a pointer is what the buffer has
from there on. The shell cuts its input into a command and arguments.
-/
namespace LensorOS.Strings.Search
open List
abbrev Block := List (BitVec 8)

/-- An object of a program, whose size `ptrdiff_t` can hold. -/
abbrev Buffer := {block : Block // block.length < 2^63}

def memchr (value : BitVec 8) : Block → Nat → Option (Option Block)
  | _, 0 => some none
  | [], _+1 => none
  | b :: block, n+1 => if b = value then some (some (b :: block)) else memchr value block n

def memcmp : Block → Block → Nat → Option Int
  | _, _, 0 => some 0
  | a :: s, b :: t, n+1 => if a ≠ b then some (if a < b then -1 else 1) else memcmp s t n
  | _, _, _ => none

/-- The loop of `memmem`, which does not return once it reads outside of a buffer. -/
def search (needle haystack : Block) (haystacklen : Nat) : Option (Option Block) :=
  if haystacklen = 0 then some none
  else do
    match ← memchr (← needle.head?) haystack haystacklen with
    | none => some none
    | some z =>
      let delta := haystack.length-z.length
      let remaining := (BitVec.ofNat 64 haystacklen).toInt-delta
      if remaining < 1 then some none
      else if (← memcmp z needle needle.length) = 0 then some (some z)
      else search needle z.tail (haystacklen-delta-1)
termination_by haystacklen

def memmem (haystack needle : Buffer) : Option (Option Block) :=
  if needle.1.length > haystack.1.length then some none
  else search needle.1 haystack.1 (haystack.1.length-(needle.1.length-1))

section
variable {b first : BitVec 8} {s t needle z : Block} {n : Nat}
theorem memcmp_eq (h : s.length ≤ t.length) :
    ∃ c, memcmp t s s.length = some c ∧ (c = 0 ↔ s <+: t) := by
  induction s generalizing t with
  | nil => exact ⟨0,by cases t <;> rfl,by simp⟩
  | cons a s ih =>
    cases t with
    | nil => simp at h
    | cons b t =>
      obtain ⟨c,hc,hi⟩ := ih (Nat.le_of_succ_le_succ h)
      by_cases hb : b = a
      · exact ⟨c,by simp [memcmp,hb,hc],by simp [hb,hi]⟩
      · exact ⟨_,if_pos hb,by grind⟩

theorem memchr_le (h : memchr first s n = some (some z)) : z.length ≤ s.length := by
  fun_induction memchr first s n <;> grind

theorem toInt_ofNat (h : n < 2^63) : (BitVec.ofNat 64 n).toInt = n := by
  rw [BitVec.toInt_ofNat']
  apply Int.bmod_eq_of_le <;> omega

theorem search_cons_ne (hl : n+1 < 2^63) (hb : b ≠ first) :
    search (first :: needle) (b :: s) (n+1) = search (first :: needle) s n := by
  have hc : memchr first (b :: s) (n+1) = memchr first s n := if_neg hb
  cases n with
  | zero => simp [search,memchr,hb]
  | succ n =>
    rw [search,search.eq_def _ s]
    simp only [head?_cons,Option.bind_eq_bind,Option.bind_some,hc]
    cases hm : memchr first s (n+1) with
    | none => simp
    | some r =>
      cases r with
      | none => simp
      | some z =>
        have hz := memchr_le hm
        have hd : (b :: s).length-z.length = s.length-z.length+1 := by grind
        simp only [Option.bind_some,hd,toInt_ofNat hl,toInt_ofNat (Nat.lt_of_succ_lt hl)]
        grind

theorem search_cons_eq (hl : n+1 < 2^63) : search (first :: needle) (first :: s) (n+1) =
    (memcmp (first :: s) (first :: needle) (needle.length+1)).bind fun c =>
      if c = 0 then some (some (first :: s)) else search (first :: needle) s n := by
  rw [search]
  simp only [head?_cons,Option.bind_eq_bind,Option.bind_some,memchr,if_true,Nat.sub_self,
    toInt_ofNat hl,tail_cons]
  grind

theorem search_eq (hn : n < 2^63) (h : s.length+1 = n+needle.length) (hne : needle ≠ []) :
    search needle s n = some (s.tails.find? (needle <+: ·)) := by
  obtain ⟨first,needle,rfl⟩ := exists_cons_of_ne_nil hne
  induction n generalizing s with
  | zero =>
    -- No suffix is long enough.
    have hf : s.tails.find? (first :: needle <+: ·) = none := by
      simp only [find?_eq_none,mem_tails,decide_eq_true_eq]
      intro z hz hp
      have hl := hp.length_le.trans hz.length_le
      grind
    rw [search,if_pos rfl,hf]
  | succ n ih =>
    cases s with
    | nil => grind
    | cons b s =>
      have ih := @ih s (by omega) (by grind)
      rw [tails,find?_cons]
      by_cases hb : b = first
      · subst hb
        obtain ⟨c,hc,hi⟩ := memcmp_eq (s := b :: needle) (t := b :: s) (by grind)
        rw [search_cons_eq hn,← length_cons,hc,Option.bind_some,ih,← apply_ite some]
        simp only [hi]
        grind
      · rw [search_cons_ne hn hb,ih]
        simp [cons_prefix_cons,Ne.symm hb]
end

/-- The search finds the first place at which the needle is found, and reads no other memory. -/
theorem memmem_first {haystack needle : Buffer} (h : needle.1 ≠ []) :
    memmem haystack needle = some (haystack.1.tails.find? (needle.1 <+: ·)) ∧
    (memmem haystack needle = some none ↔ ¬ needle.1 <:+: haystack.1) := by
  have hf : (haystack.1.tails.find? (needle.1 <+: ·) = none) ↔ ¬ needle.1 <:+: haystack.1 := by
    simp [infix_iff_prefix_suffix,find?_eq_none]
    grind
  have hm : memmem haystack needle = some (haystack.1.tails.find? (needle.1 <+: ·)) := by
    have hl := haystack.2
    have hp := length_pos_of_ne_nil h
    rw [memmem]
    split
    · rw [hf.mpr fun hi => by have := hi.length_le; omega]
    · exact search_eq (by omega) (by omega) h
  rw [hm]
  simpa using hf

theorem memmem_first_overlap :
    memmem ⟨[1,1,2,1],by decide⟩ ⟨[1,2],by decide⟩ = some (some [1,2,1]) :=
  (memmem_first (by decide)).1

section
variable (s sv : Block)
/-- The position `npos` is `none`. -/
def findFirstOf : Option Nat := s.findIdx? sv.contains
def findFirstNotOf : Option Nat := s.findIdx? fun c => !sv.contains c

def substr (pos : Nat) (len : Option Nat) : Block :=
  if pos > s.length then [] else (s.drop pos).take (min (len.getD (s.length-pos)) (s.length-pos))

@[simp] theorem substr_none (pos : Nat) : substr s pos none = s.drop pos := by
  simp [substr,take_of_length_le]
  grind

@[simp] theorem substr_zero (len : Nat) : substr s 0 (some len) = s.take len := by
  simp [substr,← take_take]
end

/-- Blanks, ends of line, `&` and `;`. -/
def separators : Block := [32,13,10,9,38,59]

/-- An argument, and the rest behind it. -/
def collectArg (theRest : Block) : Block × Block :=
  match findFirstNotOf theRest separators with
  | none => ([],theRest)
  | some argOffset =>
    let theRest := substr theRest argOffset none
    if theRest.length = 0 then ([],theRest)
    else
      let argEnd := findFirstOf theRest separators
      if argEnd = some 0 then ([],theRest)
      else
        let argEnd := argEnd.getD theRest.length
        (substr theRest 0 (some argEnd),substr theRest argEnd none)

def isSeparator (c : BitVec 8) : Bool := separators.contains c
def isText (c : BitVec 8) : Bool := !isSeparator c

section
variable {s : Block}
theorem textEnd_eq : (findFirstOf s separators).getD s.length = s.findIdx (!isText ·) := by
  simp only [isText,Bool.not_not,findIdx_eq_getD_findIdx?]
  rfl

theorem collectArg_eq : let arg := s.dropWhile isSeparator
    arg = [] ∧ collectArg s = ([],s) ∨
    arg.takeWhile isText ≠ [] ∧ collectArg s = (arg.takeWhile isText,arg.dropWhile isText) := by
  have hh := head?_dropWhile_not isSeparator s
  have hs : s.dropWhile isSeparator = s.drop (s.findIdx isText) := dropWhile_eq_drop_findIdx_not
  have hf : findFirstNotOf s separators = s.findIdx? isText := rfl
  rw [hs] at hh ⊢
  rw [collectArg,hf]
  cases hf : s.findIdx? isText with
  | none => exact .inl ⟨by rw [findIdx?_eq_none_iff_findIdx_eq.mp hf,drop_length],rfl⟩
  | some i =>
    obtain ⟨hi,he⟩ := findIdx?_eq_some_iff_findIdx_eq.mp hf
    rw [he] at hh ⊢
    cases hu : s.drop i with
    | nil => exact absurd (drop_eq_nil_iff.mp hu) (by omega)
    | cons c u =>
      rw [hu] at hh
      have hn : findFirstOf (c :: u) separators ≠ some 0 := by
        change (c :: u).findIdx? isSeparator ≠ _
        simp_all [findIdx?_cons]
      refine .inr ⟨by simp_all [isText],?_⟩
      simp [takeWhile_eq_take_findIdx_not,dropWhile_eq_drop_findIdx_not,← textEnd_eq,hu,hn]

theorem collectArg_lt (h : (collectArg s).1 ≠ []) : (collectArg s).2.length < s.length := by
  rcases collectArg_eq (s := s) with ⟨-,he⟩ | ⟨hn,he⟩
  · rw [he] at h
    exact absurd rfl h
  have ht := congrArg length (takeWhile_append_dropWhile (l := s.dropWhile isSeparator) (p := isText))
  have hd := (dropWhile_suffix (l := s) isSeparator).length_le
  have hp := length_pos_of_ne_nil hn
  grind
end

/-- The loop that collects the arguments ends with the first that is empty. -/
def collectArgs (theRest : Block) : List Block :=
  if _h : (collectArg theRest).1 = [] then []
  else (collectArg theRest).1 :: collectArgs (collectArg theRest).2
termination_by theRest.length
decreasing_by exact collectArg_lt _h

/-- The command and the arguments of a line. -/
def splitCommand (inputCommand : Block) : Block × List Block :=
  let commandEnd := (findFirstOf inputCommand separators).getD inputCommand.length
  (substr inputCommand 0 (some commandEnd),collectArgs (inputCommand.drop commandEnd))

/-- The parts between separators that are not empty. -/
def words (s : Block) : List Block := (s.splitOnP isSeparator).filter (· ≠ [])

section
variable {s : Block}
theorem words_separator {c : BitVec 8} (h : isSeparator c = true) : words (c :: s) = words s := by
  simp [words,splitOnP_cons_eq_if_modifyHead,h]

theorem words_dropWhile : words (s.dropWhile isSeparator) = words s := by
  induction s with
  | nil => rfl
  | cons c s ih => grind [dropWhile_cons,words_separator]

theorem words_run (h : s.takeWhile isText ≠ []) :
    words s = s.takeWhile isText :: words (s.dropWhile isText) := by
  have ht := takeWhile_append_dropWhile (l := s) (p := isText)
  have hh := head?_dropWhile_not isText s
  have hm : ∀ c ∈ s.takeWhile isText, isSeparator c = false := by
    intro c hc
    simpa [isText] using all_eq_true.mp all_takeWhile c hc
  cases hd : s.dropWhile isText with
  | nil =>
    rw [hd,append_nil] at ht
    rw [ht] at hm h ⊢
    simp [words,splitOnP_eq_singleton hm,h]
  | cons c rest =>
    rw [hd] at ht hh
    have hc : isSeparator c = true := by simpa [isText] using hh
    rw [words_separator hc]
    nth_rewrite 1 [← ht]
    simp [words,splitOnP_append_cons_of_forall_mem hm c hc,h]

theorem collectArgs_eq : collectArgs s = words s := by
  fun_induction collectArgs s with
  | case1 s h =>
    rcases collectArg_eq (s := s) with ⟨hn,-⟩ | ⟨hn,he⟩
    · rw [← words_dropWhile,hn]
      rfl
    · rw [he] at h
      exact absurd h hn
  | case2 s h ih =>
    rcases collectArg_eq (s := s) with ⟨-,he⟩ | ⟨hn,he⟩
    · rw [he] at h
      exact absurd rfl h
    · rw [ih,he,← words_run hn,words_dropWhile]
end

/-- The command is what is in front of the first separator, and the arguments are the words behind
it. -/
theorem splitCommand_words (line : Block) :
    splitCommand line = (line.takeWhile isText,words (line.dropWhile isText)) := by
  rw [splitCommand,substr_zero,collectArgs_eq,textEnd_eq,takeWhile_eq_take_findIdx_not,
    dropWhile_eq_drop_findIdx_not]
end LensorOS.Strings.Search
