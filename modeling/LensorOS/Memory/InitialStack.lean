import LensorOS.Memory.Boot

/-!
# The stack of a new program

The loader pushes the strings, a filler word when the number of words to come is odd, the two
terminated lists of addresses and the number of arguments.
-/
namespace LensorOS.Memory
open Framework List Machine
namespace ArgumentStack
variable (st : ArgumentStack)
inductive AlignmentPanic
  | stackUnaligned
  | stack8ByteAligned

/-- The stack of a new program, checked for its alignment. -/
def initialStack (args env : List (List (BitVec 8))) :
    Except AlignmentPanic ArgumentStack := let st := st.pushProgram args env
  if st.top % 16 ≠ 0 then
    if st.top % 8 ≠ 0 then .error .stackUnaligned else .error .stack8ByteAligned
  else .ok st

def BytesAt (m : Bytes) (a : Nat) (bytes : List (BitVec 8)) : Prop := ∀ i b, bytes[i]? = some b → m (a+i) = b

def WordsAt (m : Bytes) (a : Nat) (words : List (BitVec 64)) : Prop :=
  ∀ i w, words[i]? = some w → m.read64 (a+8 * i) = w

def Apart (a b : Nat × Nat) : Prop := a.1+a.2 ≤ b.1 ∨ b.1+b.2 ≤ a.1

def ranges (addresses : List Nat) (strs : List (List (BitVec 8))) : List (Nat × Nat) :=
  zipWith (fun a str => (a,str.length+1)) addresses strs

section
variable {m m' : Bytes} {a : Nat} {st st' : ArgumentStack} {n : Nat}
theorem BytesAt.frame {bytes : List (BitVec 8)} (h : BytesAt m a bytes)
    (hs : ∀ x, a ≤ x → m' x = m x) : BytesAt m' a bytes := by
  intro i b hb
  rw [hs (a+i) (by omega),h i b hb]

theorem store_bytesAt (m : Bytes) (a : Nat) (bytes : List (BitVec 8)) : BytesAt (m.store a bytes) a bytes := by
  intro i b hb
  unfold Bytes.store
  rw [if_pos (by omega),Nat.add_sub_cancel_left,hb,Option.getD_some]

/-- Strings that were pushed: where they are and that they lie apart. -/
structure Placed (st : ArgumentStack) (strs : List (List (BitVec 8))) (st' : ArgumentStack)
    (addresses : List Nat) : Prop where
  pushed : Pushed st (strs.map stringSize).sum st'
  stored : List.Forall₂ (fun a str => BytesAt st'.memory a (str ++ [0])) addresses strs
  inside : ∀ e ∈ ranges addresses strs, st'.top ≤ e.1 ∧ e.1+e.2 ≤ st.top
  apart : (ranges addresses strs).Pairwise Apart

theorem pushStrings_placed (st : ArgumentStack) (strs : List (List (BitVec 8)))
    (hn : (strs.map stringSize).sum ≤ st.top) (htop : st.top < 2^64) :
    Placed st strs (st.pushStrings strs).1 (st.pushStrings strs).2 := by
  induction strs generalizing st with
  | nil => exact ⟨Pushed.refl st,.nil,fun e he => absurd he not_mem_nil,.nil⟩
  | cons str rest ih =>
    rw [map_cons,sum_cons] at hn
    have hf := pushString_pushed st str (by omega) htop
    have hd := hf.top
    have hr := ih (st.pushString str) (by omega) (by omega)
    have hro : str.length+1 ≤ stringSize str := by
      unfold stringSize
      omega
    have hl := hr.pushed.top
    refine ⟨?_,?_,?_,?_⟩
    · rw [map_cons,sum_cons]
      exact hf.trans hr.pushed
    · refine .cons ?_ hr.stored
      have hs : BytesAt (st.pushString str).memory (st.pushString str).top (str ++ [0]) := store_bytesAt _ _ _
      exact hs.frame fun x hx => hr.pushed.frame x (.inr hx)
    · intro e he
      rcases mem_cons.mp he with rfl | he
      · show (((st.pushString str).pushStrings rest).1).top ≤ (st.pushString str).top ∧
          (st.pushString str).top+(str.length+1) ≤ st.top
        omega
      · obtain ⟨hg,hle⟩ := hr.inside e he
        exact ⟨hg,by omega⟩
    · refine pairwise_cons.mpr ⟨fun e he => .inr ?_,hr.apart⟩
      exact (hr.inside e he).2

theorem Pushed.stored (h : Pushed st n st') {addresses : List Nat} {strs : List (List (BitVec 8))}
    (hs : List.Forall₂ (fun a str => BytesAt st.memory a (str ++ [0])) addresses strs)
    (hi : ∀ e ∈ ranges addresses strs, st.top ≤ e.1) :
    List.Forall₂ (fun a str => BytesAt st'.memory a (str ++ [0])) addresses strs := by
  induction hs with
  | nil => exact .nil
  | cons hh _ ih =>
    have ha := hi _ mem_cons_self
    refine .cons (hh.frame fun x hx => h.frame x (.inr (ha.trans hx))) (ih ?_)
    exact fun e he => hi e (mem_cons_of_mem _ he)
end

section
variable {st : ArgumentStack} {words : List (BitVec 64)}
theorem push_words (h : WordsAt st.memory st.top words) (w : BitVec 64) (hn : 8 ≤ st.top)
    (htop : st.top < 2^64) : WordsAt (st.pushWord w).memory (st.pushWord w).top (w :: words) := by
  have hl := lower_eq hn htop
  intro i v hv
  rw [push_memory,pushWord_top]
  cases i with
  | zero =>
    rw [getElem?_cons_zero] at hv
    rw [mul_zero,add_zero,Bytes.read64_write64_same,Option.some.inj hv]
  | succ i =>
    have ha : lower st.top 8+8 * (i+1) = st.top+8 * i := by omega
    rw [ha,Bytes.read64_write64_ne _ _ (by omega)]
    rw [getElem?_cons_succ] at hv
    exact h i v hv

variable (addresses : List Nat) (h : WordsAt st.memory st.top words)
  (hn : 8 * addresses.length ≤ st.top) (htop : st.top < 2^64)
include h hn htop
private theorem pushWords_words :
    WordsAt (addresses.foldl (fun st a => st.pushWord (BitVec.ofNat 64 a)) st).memory
      (addresses.foldl (fun st a => st.pushWord (BitVec.ofNat 64 a)) st).top
      ((addresses.map (BitVec.ofNat 64)).reverse ++ words) := by
  induction addresses generalizing st words with
  | nil => exact h
  | cons a rest ih =>
    rw [length_cons] at hn
    have hf := push_pushed st (BitVec.ofNat 64 a) (by omega) htop
    have hd := hf.top
    have hne := ih (push_words h (BitVec.ofNat 64 a) (by omega) htop) (by omega) (by omega)
    rw [foldl_cons,map_cons,reverse_cons,append_assoc]
    exact hne

theorem pushAddresses_words :
    WordsAt (st.pushAddresses addresses).memory (st.pushAddresses addresses).top
      (addresses.map (BitVec.ofNat 64) ++ words) := by
  rw [← length_reverse] at hn
  have hw := pushWords_words addresses.reverse h hn htop
  rw [map_reverse,reverse_reverse] at hw
  exact hw
end
def layoutWords (argc : Nat) (argv envp : List Nat) : List (BitVec 64) := BitVec.ofNat 64 argc ::
    (argv.map (BitVec.ofNat 64) ++ 0 :: (envp.map (BitVec.ofNat 64) ++ [0]))

/-- The number of arguments, the two terminated lists of pointers, and the strings. -/
def layoutRanges (sp : Nat) (args env : List (List (BitVec 8))) (argv envp : List Nat) :
    List (Nat × Nat) := (sp,8) :: (sp+8, 8 * (args.length+1)) ::
    (sp+8+8 * (args.length+1), 8 * (env.length+1)) :: (ranges argv args ++ ranges envp env)

/-- What a program expects of the memory of its stack, between `bottom` and `top`. -/
structure Layout (m : Bytes) (bottom top sp : Nat) (args env : List (List (BitVec 8)))
    (argv envp : List Nat) : Prop where
  addressable : top < 2^64
  aligned : sp % 16 = 0
  words : WordsAt m sp (layoutWords args.length argv envp)
  arguments : List.Forall₂ (fun a str => BytesAt m a (str ++ [0])) argv args
  environment : List.Forall₂ (fun a str => BytesAt m a (str ++ [0])) envp env
  inside : ∀ e ∈ layoutRanges sp args env argv envp, bottom ≤ e.1 ∧ e.1+e.2 ≤ top
  apart : (layoutRanges sp args env argv envp).Pairwise Apart

theorem stringSize_aligned (str : List (BitVec 8)) : stringSize str % 16 = 0 := by
  unfold stringSize
  omega

theorem stringSizes_aligned (strs : List (List (BitVec 8))) : (strs.map stringSize).sum % 16 = 0 := by
  induction strs with
  | nil => rfl
  | cons str rest ih =>
    have hf := stringSize_aligned str
    rw [map_cons,sum_cons]
    omega

theorem footprint_aligned (args env : List (List (BitVec 8))) : footprint args env % 16 = 0 := by
  have he := stringSizes_aligned env
  have ha := stringSizes_aligned args
  unfold footprint
  split_ifs with ho
  · omega
  · omega

private theorem pushWords_layout (st : ArgumentStack) (argv envp : List Nat) (n : Nat)
    (hn : 8 * (1+envp.length+1+argv.length+1) ≤ st.top) (htop : st.top < 2^64) :
    WordsAt (((((st.pushWord 0).pushAddresses envp).pushWord 0).pushAddresses argv).pushWord
        (BitVec.ofNat 64 n)).memory
      (((((st.pushWord 0).pushAddresses envp).pushWord 0).pushAddresses argv).pushWord
        (BitVec.ofNat 64 n)).top (layoutWords n argv envp) := by
  have hno : WordsAt st.memory st.top [] := fun i w hw => by cases hw
  have hw1 := push_words hno 0 (by omega) htop
  have ht1 := (push_pushed st 0 (by omega) htop).top
  generalize st.pushWord 0 = st1 at *
  have hw2 := pushAddresses_words envp hw1 (by omega) (by omega)
  have ht2 := (pushAddresses_pushed st1 envp (by omega) (by omega)).top
  generalize st1.pushAddresses envp = st2 at *
  have hw3 := push_words hw2 0 (by omega) (by omega)
  have ht3 := (push_pushed st2 0 (by omega) (by omega)).top
  generalize st2.pushWord 0 = st3 at *
  have hw4 := pushAddresses_words argv hw3 (by omega) (by omega)
  have ht4 := (pushAddresses_pushed st3 argv (by omega) (by omega)).top
  exact push_words hw4 (BitVec.ofNat 64 n) (by omega) (by omega)

theorem pushProgram_layout (st : ArgumentStack) (args env : List (List (BitVec 8)))
    (hn : footprint args env ≤ st.top) (htop : st.top < 2^64) (hal : st.top % 16 = 0) :
    ∃ argv envp, Layout (st.pushProgram args env).memory (st.top-footprint args env) st.top
      (st.pushProgram args env).top args env argv envp := by
  have hf := footprint_aligned args env
  have ht0 := (st.pushProgram_pushed args env hn htop).top
  unfold footprint at hn hf ht0
  have henv := pushStrings_placed st env (by omega) htop
  have ht1 := henv.pushed.top
  have har := pushStrings_placed (st.pushStrings env).1 args (by omega) (by omega)
  have ht2 := har.pushed.top
  have hen := henv.stored.length_eq
  have harg := har.stored.length_eq
  have hfi := pushFiller_pushed ((st.pushStrings env).1.pushStrings args).1 env.length args.length
    (by omega) (by omega)
  have ht3 := hfi.top
  unfold pushProgram at ht0 ⊢
  dsimp only at ht0 ⊢
  generalize (st.pushStrings env).1 = st1 at *
  generalize (st.pushStrings env).2 = envp at *
  generalize (st1.pushStrings args).1 = st2 at *
  generalize (st1.pushStrings args).2 = argv at *
  generalize st2.pushFiller env.length args.length = st3 at *
  have hw := pushLists_pushed st3 argv envp args.length (by omega) (by omega)
  have hl := pushWords_layout st3 argv envp args.length (by omega) (by omega)
  have ht4 := hw.top
  generalize ((((st3.pushWord 0).pushAddresses envp).pushWord 0).pushAddresses argv).pushWord
    (BitVec.ofNat 64 args.length) = st4 at *
  have ht : (env.map stringSize).sum+(args.map stringSize).sum +
      (if (env.length+1+args.length+1+1) % 2 ≠ 0 then 8 else 0) +
        8 * (1+env.length+1+args.length+1) = footprint args env := rfl
  refine ⟨argv,envp,htop,?_,hl,?_,?_,?_,?_⟩
  · omega
  · exact (hfi.trans hw).stored har.stored fun e he => (har.inside e he).1
  · exact ((har.pushed.trans hfi).trans hw).stored henv.stored fun e he => (henv.inside e he).1
  · intro e he
    simp only [layoutRanges,mem_cons,mem_append] at he
    rcases he with rfl | rfl | rfl | he | he
    · exact ⟨by omega,by dsimp only; omega⟩
    · exact ⟨by dsimp only; omega,by dsimp only; omega⟩
    · exact ⟨by dsimp only; omega,by dsimp only; omega⟩
    · obtain ⟨hlo,hh⟩ := har.inside e he
      exact ⟨by omega,by omega⟩
    · obtain ⟨hlo,hh⟩ := henv.inside e he
      exact ⟨by omega,by omega⟩
  · -- the words lie below the strings, and the arguments below the environment
    have ha : ∀ e ∈ ranges argv args ++ ranges envp env, st3.top ≤ e.1 := by
      intro e he
      rcases mem_append.mp he with he | he
      · have hlo := (har.inside e he).1
        omega
      · have hlo := (henv.inside e he).1
        omega
    have hs : (ranges argv args ++ ranges envp env).Pairwise Apart := by
      refine pairwise_append.mpr ⟨har.apart,henv.apart,fun e he e' he' => .inl ?_⟩
      exact (har.inside e he).2.trans (henv.inside e' he').1
    refine pairwise_cons.mpr ⟨?_,pairwise_cons.mpr ⟨?_,pairwise_cons.mpr ⟨?_,hs⟩⟩⟩
    · intro e he
      simp only [mem_cons] at he
      rcases he with rfl | rfl | he
      · exact .inl le_rfl
      · exact .inl (by omega)
      · have hlo := ha e he
        exact .inl (by dsimp only; omega)
    · intro e he
      rcases mem_cons.mp he with rfl | he
      · exact .inl le_rfl
      · have hlo := ha e he
        exact .inl (by dsimp only; omega)
    · intro e he
      have hlo := ha e he
      exact .inl (by dsimp only; omega)

/-- The stack of a new program has the layout, for every program whose strings fit. -/
theorem initialStack_layout {p q : PhysicalMemory} {newStackBottom : Nat} (hp : p.Sound)
    (hstack : p.requestPages userProcessStackSizePages = (some newStackBottom,q))
    (m : Bytes) (args env : List (List (BitVec 8)))
    (hfits : footprint args env ≤ userProcessStackSizePages * pageSize) : ∃ st argv envp,
      initialStack ⟨m,newStackBottom+userProcessStackSizePages * pageSize⟩ args env = .ok st ∧
      Layout st.memory newStackBottom
        (newStackBottom+userProcessStackSizePages * pageSize) st.top args env argv envp := by
  obtain ⟨page,rfl,-,-,hi,-⟩ := hp.requestPages hstack
  have ha := hp.addressable
  have hs : userProcessStackSizePages = 4 := rfl
  rw [hs] at hfits hi ⊢
  unfold pageSize at hfits ⊢
  obtain ⟨argv,envp,hl⟩ := pushProgram_layout
    ⟨m,page * 4096+4 * 4096⟩ args env (by dsimp only; omega) (by dsimp only; omega)
    (by dsimp only; omega)
  refine ⟨(⟨m,page * 4096+4 * 4096⟩ : ArgumentStack).pushProgram args env,argv,envp,?_,?_⟩
  · unfold initialStack
    rw [if_neg (not_not.mpr hl.aligned)]
  refine ⟨hl.addressable,hl.aligned,hl.words,hl.arguments, hl.environment,?_,hl.apart⟩
  intro e he
  obtain ⟨hlo,hh⟩ := hl.inside e he
  dsimp only at hlo hh
  exact ⟨by omega,hh⟩

/-- One argument and one environment string on a stack of a machine that has just booted. -/
theorem initialStack_layout_boot : ∃ newStackBottom q st argv envp,
    bootPhysical.requestPages userProcessStackSizePages = (some newStackBottom,q) ∧
    initialStack ⟨zeroMemory,
      newStackBottom+userProcessStackSizePages * pageSize⟩ [[0x61]] [[0x62,0x3d]] = .ok st ∧
    Layout st.memory newStackBottom
      (newStackBottom+userProcessStackSizePages * pageSize) st.top [[0x61]]
        [[0x62,0x3d]] argv envp := by
  obtain ⟨bottom,q,hs,-⟩ := (boot_plenty (n := 4+0) (by decide)).request boot_sound (by decide)
  obtain ⟨st,argv,envp,hr,hl⟩ := initialStack_layout boot_sound hs
    zeroMemory [[0x61]] [[0x62,0x3d]] (by decide)
  exact ⟨bottom,q,st,argv,envp,hs,hr,hl⟩
end ArgumentStack
end LensorOS.Memory
