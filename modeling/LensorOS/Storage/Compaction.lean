import LensorOS.Storage.SparseVector

/-!
# Holes of a sparse vector

An index keeps its element until it is erased, and compaction moves the elements into the holes. An
iterator is erased by its distance from the first element, which is not its index behind a hole.
-/
namespace LensorOS.Storage
open List Function
namespace SparseVector
variable {α : Type} (v : SparseVector α)
/-- The free list has each hole once. An element is pushed to a hole or to the end, and no operation
changes what is at another index. -/
theorem indices_stable : v.idxs.Nodup ∧
    (∀ i, i ∈ v.idxs ↔ i < v.allocatedSize ∧ v.get i = none) ∧
    (∀ a, ((v.pushBack (some a)).1 ∈ v.idxs ∨ (v.pushBack (some a)).1 = v.allocatedSize) ∧
      v.get (v.pushBack (some a)).1 = none ∧
        (v.pushBack (some a)).2.get = update v.get (v.pushBack (some a)).1 (some a)) ∧
      ∀ i < v.allocatedSize, (v.erase i).get = update v.get i none ∧
        ∀ a, (v.replace i a).get = update v.get i (some a) := by
  refine ⟨v.nodup,fun i => ?_,fun a => ⟨?_,v.get_insert_fresh a,v.get_insert a⟩,fun i hi => ?_⟩
  · rw [v.holes,get,allocatedSize]
    cases he : v.els[i]? with
    | none => simpa using he
    | some el => simp [lt_of_getElem? he]
  · cases hi : v.idxs with
    | nil => exact .inr (v.insert_of_full a hi).1
    | cons free rest => exact .inl ((v.insert_of_hole a hi).1 ▸ mem_cons_self)
  · exact ⟨v.get_erase i,v.get_replace hi⟩

/-- Move the elements from `el` on to the left, the first to `hole`; `left` is what a move leaves. -/
def shift (left : α → Option α) (els : List (Option α)) (hole el : Nat) : List (Option α) × Nat :=
  if h : el < els.length then
    match els[el] with
    | some a => shift left ((els.set hole (some a)).set el (left a)) (hole+1) (el+1)
    | none => shift left els hole (el+1)
  else (els,hole)
termination_by els.length-el

/-- The elements and the free list after the holes are removed. -/
def compact (left : α → Option α) : List (Option α) × List Nat :=
  let hole := v.els.findIdx Option.isNone
  if hole = v.els.length then (v.els,v.idxs)
  else
    let el := hole+1+(v.els.drop (hole+1)).findIdx Option.isSome
    if el = v.els.length then (v.els.take hole,[])
    else
      let (els,hole) := shift left v.els hole el
      (els.take hole,[])

theorem shift_eq (left : α → Option α) {els : List (Option α)} {hole el : Nat} (hh : hole < el)
    (hl : el ≤ els.length) : (shift left els hole el).1.take (shift left els hole el).2 =
      els.take hole ++ (els.drop el).filter Option.isSome := by
  induction els, hole, el using shift.induct left with
  | case1 els hole el h a he ih =>
    rw [shift,dif_pos h]
    simp only [he]
    rw [ih (by omega) (by simpa using Nat.succ_le_of_lt h)]
    have ht : ((els.set hole (some a)).set el (left a)).take (hole+1) =
        els.take hole ++ [some a] := by
      refine ext_getElem? fun j => ?_
      grind
    simp [ht,drop_eq_getElem_cons h,he,drop_set,Nat.lt_succ_of_lt hh]
  | case2 els hole el h he ih =>
    rw [shift,dif_pos h]
    simp only [he]
    rw [ih (by omega) h]
    simp [drop_eq_getElem_cons h,he]
  | case3 els hole el h =>
    rw [shift,dif_neg h]
    simp [drop_of_length_le (Nat.le_of_not_lt h)]

theorem filter_drop_findIdx (p : α → Bool) (xs : List α) :
    (xs.drop (xs.findIdx p)).filter p = xs.filter p := by
  induction xs with
  | nil => rfl
  | cons x xs ih => cases hx : p x <;> simp [findIdx_cons,hx,ih]

theorem filter_isSome (xs : List (Option α)) :
    xs.filter Option.isSome = xs.take (xs.findIdx Option.isNone) ++
      (xs.drop (xs.findIdx Option.isNone+1)).filter Option.isSome := by
  induction xs with
  | nil => rfl
  | cons x xs ih => cases x <;> simp [findIdx_cons,← ih]

/-- Compaction leaves the elements in their order, no hole and an empty free list. -/
theorem compacted (left : α → Option α) : v.compact left = (v.els.filter Option.isSome,[]) := by
  rw [filter_isSome,← filter_drop_findIdx _ (v.els.drop _),drop_drop,compact]
  have hle := (v.els.drop (v.els.findIdx Option.isNone+1)).findIdx_le_length (p := Option.isSome)
  rw [length_drop] at hle
  by_cases hn : v.els.findIdx Option.isNone = v.els.length
  · have hi : v.idxs = [] := by
      refine eq_nil_iff_forall_not_mem.mpr fun i hi => ?_
      have hm := findIdx_eq_length.mp hn none (mem_of_getElem? ((v.holes i).mp hi))
      cases hm
    rw [if_pos hn,hn,hi,drop_of_length_le (by omega),take_length]
    simp
  have hlt : v.els.findIdx Option.isNone < v.els.length := by grind
  rw [if_neg hn]
  dsimp only
  split
  · next he => simp [he]
  · exact congrArg (·,[]) (shift_eq left (by omega) (by omega))

/-- Erase the element that an iterator denotes. `begin` denotes the first element. -/
def eraseIterator (it : Nat) : SparseVector α := if it = v.allocatedSize then v
  else v.erase (it-v.els.findIdx Option.isSome)

def find [DecidableEq α] (a : α) : Nat := v.els.findIdx (· = some a)

/-- Remove a file from the list of open files. Its descriptor has been cleared, so that it is looked
for in the list. -/
def eraseFile [DecidableEq α] (file : α) : SparseVector α := v.eraseIterator (v.find file)

variable {v} {i : Nat} {a : α}
theorem first_le (h : v.get i = some a) : v.els.findIdx Option.isSome ≤ i := by
  by_contra hlt
  have hn := not_of_lt_findIdx (Nat.lt_of_not_le hlt)
  rw [(List.getElem?_eq_some_iff.mp (v.get_eq_some.mp h)).2] at hn
  cases hn

theorem first_eq_zero_iff (h : v.get i = some a) :
    v.els.findIdx Option.isSome = 0 ↔ (v.get 0).isSome := by
  have hl := v.get_lt h
  unfold allocatedSize at hl
  cases he : v.els with
  | nil => simp [he] at hl
  | cons x xs => cases x <;> simp [get,he,findIdx_cons]

theorem eraseIterator_iff (h : v.get i = some a) :
    (v.eraseIterator i).get = update v.get i none ↔ (v.get 0).isSome := by
  have hle := first_le h
  rw [eraseIterator,if_neg (Nat.ne_of_lt (v.get_lt h)),get_erase,← first_eq_zero_iff h]
  constructor
  · intro he
    have hi := congrFun he i
    rw [update_self,update_apply] at hi
    split at hi
    · omega
    · simp [h] at hi
  · intro hz
    rw [hz,Nat.sub_zero]

/-- An iterator to an element erases this element only, and a file is the one that is removed,
exactly if the vector does not begin with a hole. -/
theorem iterator_erases_iff [DecidableEq α] (h : v.get i = some a) :
    ((v.eraseIterator i).get = update v.get i none ↔ (v.get 0).isSome) ∧
      v.get (v.find a) = some a ∧
        ((v.eraseFile a).get = update v.get (v.find a) none ↔ (v.get 0).isSome) := by
  have hf : v.get (v.find a) = some a := by
    have hm := mem_of_getElem? (v.get_eq_some.mp h)
    have hlt : v.find a < v.els.length := findIdx_lt_length_of_exists ⟨_,hm,by simp⟩
    rw [get_eq_some,getElem?_eq_getElem hlt]
    exact congrArg some (of_decide_eq_true (findIdx_getElem (w := hlt)))
  exact ⟨eraseIterator_iff h,hf,eraseIterator_iff hf⟩

def threeFiles : SparseVector Nat := (((empty.insert 10).2.insert 20).2.insert 30).2

theorem iterator_erases_second : threeFiles.get 1 = some 20 ∧
    (threeFiles.eraseFile 20).get = update threeFiles.get 1 none :=
  ⟨rfl,(iterator_erases_iff (v := threeFiles) (i := 1) rfl).2.2.mpr rfl⟩

/-- After the first file is closed, to close the third one removes the second. -/
theorem file_removes_other : ((threeFiles.erase 0).eraseFile 30).els = [none,none,some 30] := by
  decide
end SparseVector
end LensorOS.Storage
