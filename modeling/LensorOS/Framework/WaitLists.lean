import Mathlib.Data.List.Nodup
import Mathlib.Logic.Function.Basic

/-!
# Wait lists

Processes sleep on objects, and an object may keep a list of processes to wake up.
-/
namespace LensorOS.Framework
open List Function
variable {ι ω : Type*} {i : ι}
/-- Each listed process sleeps on the object of the list, and is listed once. -/
structure Listed (lists : ω → List ι) (asleepOn : ι → Option ω) : Prop where
  once : ∀ o, (lists o).Nodup
  asleep : ∀ o, ∀ i ∈ lists o, asleepOn i = some o

/-- Some lists are emptied, and processes from these lists are woken up. -/
structure Drains (lists lists' : ω → List ι) (wakes : List (ι × ω)) : Prop where
  kept : ∀ o, lists' o = lists o ∨ lists' o = []
  woken : ∀ wake ∈ wakes, wake.1 ∈ lists wake.2 ∧ lists' wake.2 = []
  once : (∀ o, (lists o).Nodup) → wakes.Nodup

/-- No process is taken off a list without a wake-up. -/
def WakesAll (lists lists' : ω → List ι) (wakes : List (ι × ω)) (o : ω) : Prop :=
  ∀ i ∈ lists o, i ∈ lists' o ∨ (i,o) ∈ wakes

section
variable {lists lists' lists'' : ω → List ι} {wakes wakes' : List (ι × ω)} {o : ω}
theorem Drains.refl (lists : ω → List ι) : Drains lists lists [] where
  kept := fun _ => .inl rfl
  woken := by simp
  once := fun _ => nodup_nil

section
variable (h : Drains lists lists' wakes)
include h
theorem Drains.empty (ho : lists o = []) : lists' o = [] := by
  rcases h.kept o with hs | hn
  · exact hs.trans ho
  · exact hn

theorem Drains.mem (hi : i ∈ lists' o) : lists' o = lists o := by
  rcases h.kept o with hs | hn
  · exact hs
  · simp [hn] at hi

theorem Drains.nodup (hl : ∀ o, (lists o).Nodup) (o : ω) : (lists' o).Nodup := by
  rcases h.kept o with hs | hn
  · exact hs ▸ hl o
  · simp [hn]

theorem Drains.trans (h' : Drains lists' lists'' wakes') : Drains lists lists'' (wakes ++ wakes') where
  kept := by
    intro o
    rcases h'.kept o with hs | hn
    · rw [hs]
      exact h.kept o
    · exact .inr hn
  woken := by
    intro wake hw
    rcases mem_append.mp hw with hw | hw
    · obtain ⟨hm,he⟩ := h.woken wake hw
      exact ⟨hm,h'.empty he⟩
    · obtain ⟨hm,he⟩ := h'.woken wake hw
      exact ⟨h.mem hm ▸ hm,he⟩
  once := by
    intro hl
    refine nodup_append.mpr ⟨h.once hl,h'.once (h.nodup hl),?_⟩
    rintro wake hw wake' hw' rfl
    have hm := (h'.woken wake hw').1
    rw [(h.woken wake hw).2] at hm
    cases hm
end

theorem WakesAll.trans (h : WakesAll lists lists' wakes o)
    (h' : WakesAll lists' lists'' wakes' o) : WakesAll lists lists'' (wakes ++ wakes') o := by
  intro i hi
  rcases h i hi with hm | hw
  · rcases h' i hm with hm | hw
    · exact .inl hm
    · exact .inr (mem_append_right _ hw)
  · exact .inr (mem_append_left _ hw)

variable [DecidableEq ω]
theorem Drains.all (lists : ω → List ι) (o : ω) :
    Drains lists (update lists o []) ((lists o).map fun i => (i,o)) where
  kept := by
    intro o'
    by_cases he : o' = o
    · simp [he]
    · simp [he]
  woken := by
    intro wake hw
    obtain ⟨i,hi,rfl⟩ := mem_map.mp hw
    exact ⟨hi,by simp⟩
  once := by
    intro hl
    exact (hl o).map fun _ _ he => (Prod.mk.inj he).1

theorem Drains.drop (lists : ω → List ι) (o : ω) : Drains lists (update lists o []) [] where
  kept := by
    intro o'
    by_cases he : o' = o
    · simp [he]
    · simp [he]
  woken := by simp
  once := fun _ => nodup_nil
end

section
variable {lists lists' : ω → List ι} {asleepOn : ι → Option ω} {wakes : List (ι × ω)} {o : ω}
theorem Listed.append [DecidableEq ω] (h : Listed lists asleepOn)
    (hi : asleepOn i = some o) (hn : i ∉ lists o) :
    Listed (update lists o (lists o ++ [i])) asleepOn where
  once := by
    intro o'
    by_cases he : o' = o
    · subst he
      simp only [update_self]
      refine nodup_append.mpr ⟨h.once o',nodup_singleton _,?_⟩
      rintro a ha b hb rfl
      exact hn (mem_singleton.mp hb ▸ ha)
    · simpa [he] using h.once o'
  asleep := by
    intro o' j hj
    by_cases he : o' = o
    · subst he
      simp only [update_self,mem_append,mem_singleton] at hj
      rcases hj with hj | rfl
      · exact h.asleep o' j hj
      · exact hi
    · exact h.asleep o' j (by simpa [he] using hj)

variable [DecidableEq ι]
def awakened (wakes : List (ι × ω)) (asleepOn : ι → Option ω) (i : ι) : Option ω :=
  if i ∈ wakes.map Prod.fst then none else asleepOn i

@[simp] theorem awakened_nil (asleepOn : ι → Option ω) : awakened [] asleepOn = asleepOn := by
  funext i
  simp [awakened]

theorem awakened_append (wakes wakes' : List (ι × ω)) (asleepOn : ι → Option ω) :
    awakened (wakes ++ wakes') asleepOn = awakened wakes' (awakened wakes asleepOn) := by
  funext i
  simp only [awakened,map_append,mem_append]
  by_cases hi : i ∈ wakes.map Prod.fst
  · simp [hi]
  · simp only [hi,false_or,if_false]

variable (h : Listed lists asleepOn)
include h
theorem Listed.drain (hd : Drains lists lists' wakes) : Listed lists' (awakened wakes asleepOn) where
  once := hd.nodup h.once
  asleep := by
    intro o i hi
    have hol := hd.mem hi ▸ hi
    have hot : i ∉ wakes.map Prod.fst := by
      intro hw
      obtain ⟨⟨j,o'⟩,hwa,rfl⟩ := mem_map.mp hw
      obtain ⟨hm,he⟩ := hd.woken _ hwa
      have ho : o' = o := Option.some.inj ((h.asleep o' j hm).symm.trans (h.asleep o j hol))
      subst ho
      rw [he] at hi
      cases hi
    rw [awakened,if_neg hot]
    exact h.asleep o i hol

theorem Listed.asleep_at (hd : Drains lists lists' wakes)
    {before after : List (ι × ω)} (hw : wakes = before ++ (i,o) :: after) :
    awakened before asleepOn i = some o := by
  have hn := hd.once h.once
  rw [hw] at hn hd
  have hl := (hd.woken (i,o) (by simp)).1
  have hno : i ∉ before.map Prod.fst := by
    intro hwo
    obtain ⟨⟨j,o'⟩,hwa,rfl⟩ := mem_map.mp hwo
    have hot := (hd.woken (j,o') (mem_append_left _ hwa)).1
    have ho : o' = o := Option.some.inj ((h.asleep o' j hot).symm.trans (h.asleep o j hl))
    subst ho
    exact (nodup_append.mp hn).2.2 _ hwa _ mem_cons_self rfl
  rw [awakened,if_neg hno]
  exact h.asleep o i hl

theorem Listed.sleep (ha : asleepOn i = none) (o : ω) :
    Listed lists (update asleepOn i (some o)) where
  once := h.once
  asleep := by
    intro o' j hj
    have hn : j ≠ i := by
      rintro rfl
      exact absurd (h.asleep o' j hj) (by simp [ha])
    rw [update_of_ne hn]
    exact h.asleep o' j hj

theorem Listed.wake (hn : ∀ o, i ∉ lists o) (o : ω) :
    Listed lists (awakened [(i,o)] asleepOn) where
  once := h.once
  asleep := by
    intro o' j hj
    have hne : j ∉ [(i,o)].map Prod.fst := by
      intro hi
      have hi : j = i := by simpa using hi
      exact hn o' (hi ▸ hj)
    rw [awakened,if_neg hne]
    exact h.asleep o' j hj
end
end LensorOS.Framework
