import LensorOS.Storage.DirectoryIteration

/-!
# Which directories are listed exactly

A directory is a chain of clusters of deleted entries and files; a file is a short entry behind the
entries of its long name, last part first.
-/
namespace LensorOS.Storage.FileAllocationTableDriver
open List Option ClusterEntry
def nameBytes (name : List (BitVec 16)) : List (BitVec 8) :=
  name.flatMap fun c : BitVec 16 => [c.setWidth 8,(c >>> 8).setWidth 8]

/-- A name as it is stored: a name that does not fill its last part is closed by a zero
character and filled up with 0xffff. -/
def padded (name : List (BitVec 16)) : List (BitVec 16) := if name.length % 13 = 0 then name
  else name ++ 0 :: replicate (12-name.length % 13) 0xffff

/-- The order byte of a part of a long name; the last part is marked. -/
def orderByte (i parts : Nat) : BitVec 8 := BitVec.ofNat 8 (i+1) ||| if i+1 = parts then 0x40 else 0

/-- The entries, in the order they are stored, that encode a long name. -/
structure Encodes (parts : List ClusterEntry) (name : List (BitVec 16)) : Prop where
  count : parts.length = (name.length+12) / 13
  limit : parts.length ≤ 20
  order : ∀ i e, parts.reverse[i]? = some e → e.mark = orderByte i parts.length
  long : ∀ e ∈ parts, e.longFileName = true
  characters : parts.reverse.flatMap characters = nameBytes (padded name)
  legal : ∀ c ∈ name, c ≠ 0 ∧ c ≠ 0xffff

structure LiveEntry where
  name : List (BitVec 16)
  parts : List ClusterEntry
  short : ClusterEntry
  encodes : Encodes parts name
  present : short.mark ≠ 0
  live : short.mark ≠ 0xe5
  isShort : short.longFileName = false

inductive Item
  | deleted (e : ClusterEntry) (h : e.mark = 0xe5)
  | live (file : LiveEntry)

def Item.entries : Item → List ClusterEntry
  | .deleted e _ => [e]
  | .live file => file.parts ++ [file.short]

/-- What an iteration is to yield for an item: the short entry and its long name. -/
def Item.listed : Item → Option (ClusterEntry × List (BitVec 8))
  | .deleted _ _ => none
  | .live file => some (file.short,nameBytes file.name)

variable (d : FileAllocationTableDriver)
def fatEntry (cluster : BitVec 32) : BitVec 32 × Bool :=
  d.tableValue (fun i => d.device ((d.byteOffset d.br.bpb.firstFatSector).toNat+i))
    (cluster.setWidth 64) (d.fatOffset (cluster.setWidth 64)).toNat

structure ClusterChain (chain : List (BitVec 32)) : Prop where
  nonempty : chain ≠ []
  nodup : chain.Nodup
  inside : ∀ c ∈ chain, 2 ≤ c.toNat ∧ c.toNat < d.br.totalClusters.toNat+2
  linked : chain.IsChain fun a b => d.fatEntry a = (b,true)
  ends : ∀ c ∈ chain.getLast?, (d.fatEntry c).2 = false

/-- A well formed directory: its items, followed by zero entries. -/
structure Directory where
  first : BitVec 32
  rest : List (BitVec 32)
  chain : d.ClusterChain (first :: rest)
  items : List Item
  unused : Nat
  contents : (first :: rest).flatMap d.clusterEntries =
    items.flatMap Item.entries ++ replicate unused .zero

/-- What the iterator yields for the entries of a cluster, of which one has to be zero. -/
def scan : (longFileName : List (BitVec 8)) → List ClusterEntry →
    Option (List (ClusterEntry × List (BitVec 8)))
  | _, [] => none
  | longFileName, e :: rest =>
    if e.mark = 0 then some []
    else if e.mark = 0xe5 then none
    else if e.longFileName then scan (longFileName ++ e.characters) rest
    else (scan [] rest).map ((e,trimLongFileName longFileName) :: ·)

section
variable {d} {it : Iterator} {found : List Found} {rest : List ClusterEntry} {e : ClusterEntry}
structure Before (it : Iterator) (rest : List ClusterEntry) : Prop where
  more : it.moreClusters = true
  rest : it.clusterContents.drop it.ce = rest

theorem Before.entry (h : Before it rest) : it.entry = rest.headD .zero := by
  rw [Iterator.entry,← h.rest,headD_eq_head?_getD,head?_drop,getD_eq_getElem?_getD]

theorem Before.next (h : Before it (e :: rest)) : it.clusterContents.drop (it.ce+1) = rest := by
  rw [← tail_drop,h.rest,tail_cons]

theorem lookUp_zero (lastFatSector : BitVec 64) : d.lookUp lastFatSector zero.getClusterNumber = none := by
  have ho : d.fatOffset 0 = 0 := by
    unfold fatOffset
    cases d.type <;> rfl
  have hn : zero.getClusterNumber.setWidth 64 = (0 : BitVec 64) := rfl
  unfold lookUp entryOffset
  dsimp only
  rw [hn,ho,if_pos]
  left
  simp

theorem next_zero (h : it.entry = .zero) : (d.tryReadNextCluster it).moreClusters = false := by
  rw [tryReadNextCluster,h,lookUp_zero]

/-- An iterator at an entry stays in its vectors: a zero entry names no cluster. -/
theorem Before.stays (h : Before it (e :: rest)) (hz : e.mark = 0 → e = .zero) : ¬ d.Strays it := by
  have he : it.entry = e := h.entry
  rintro (hl | ⟨hend,ho,-⟩)
  · have hr := h.rest
    rw [drop_eq_nil_of_le hl] at hr
    cases hr
  · rw [he] at hend ho
    rw [hz hend,lookUp_zero] at ho
    cases ho

def Iterator.pending (it : Iterator) : List (BitVec 8) :=
  if it.clearLfn then [] else it.longFileName

section
variable (it : Iterator)
theorem clear_longFileName : it.clear.longFileName = it.pending := by
  unfold Iterator.clear Iterator.pending
  split <;> rfl

def Found.pair (f : Found) : ClusterEntry × List (BitVec 8) := (f.ce,f.longFileName)

theorem clear_entry : it.clear.entry = it.entry := by
  unfold Iterator.clear
  split <;> rfl

theorem clear_clearLfn : it.clear.clearLfn = false := by
  unfold Iterator.clear
  split
  · rfl
  · next h => exact Bool.not_eq_true _ ▸ h

theorem pending_extend : it.clear.extend.pending = it.pending ++ it.entry.characters := by
  have hc : it.clear.extend.clearLfn = false := clear_clearLfn it
  rw [Iterator.pending,hc,← clear_longFileName,← clear_entry it]
  rfl
end

theorem Before.extend (h : Before it (e :: rest)) : Before it.clear.extend rest := by
  unfold Iterator.clear
  split <;> exact ⟨h.more,h.next⟩

theorem Before.settle (h : Before it (e :: rest)) : Before (d.settle it.clear).skip rest := by
  unfold Iterator.clear
  split <;> exact ⟨h.more,h.next⟩

theorem settle_pair (it : Iterator) : (d.settle it.clear).current.pair = (it.entry,trimLongFileName it.pending) := by
  rw [← clear_longFileName,← clear_entry it]
  rfl

theorem yields_end (hmore : it.moreClusters = true) (hin : ¬ d.Strays it) (he : it.entry = .zero) :
    d.Yields it found ↔ found = [] := by
  have hend : it.entry.mark = 0 := by
    rw [he]
    rfl
  have hl := next_zero (d := d) he
  constructor
  · intro h
    cases h with
    | done => rfl
    | cluster _ _ _ h =>
      cases h with
      | done => rfl
      | cluster hmore | long hmore => exact absurd (hl.symm.trans hmore) (by simp)
      | short hmore => exact absurd (hl.symm.trans hmore) (by simp)
    | long _ _ hm | short _ _ hm => exact absurd hend hm
  · rintro rfl
    exact .cluster hmore hin hend (.done hl)

theorem not_yields_stray (found : List Found) (hmore : it.moreClusters = true) (hs : d.Strays it) :
    ¬ d.Yields it found := by
  intro hy
  cases hy with
  | done hd => exact absurd (hmore.symm.trans hd) (by simp)
  | cluster _ hin | long _ hin | short _ hin => exact hin hs

theorem not_yields_deleted (found : List Found) (hmore : it.moreClusters = true) (h : it.entry.mark = 0xe5) :
    ¬ d.Yields it found := by
  have hend : it.entry.mark ≠ 0 := by
    rw [h]
    decide
  intro hy
  cases hy with
  | done hd => exact absurd (hmore.symm.trans hd) (by simp)
  | cluster _ _ hm => exact hend hm
  | long _ _ _ hdel | short _ _ _ hdel => exact hdel h

section
variable (hmore : it.moreClusters = true) (hin : ¬ d.Strays it) (hend : it.entry.mark ≠ 0)
  (hdel : it.entry.mark ≠ 0xe5)
include hmore hin hend hdel
theorem yields_long (hl : it.entry.longFileName = true) : d.Yields it found ↔ d.Yields it.clear.extend found := by
  constructor
  · intro h
    cases h with
    | done hd => exact absurd (hmore.symm.trans hd) (by simp)
    | cluster _ _ hm => exact absurd hm hend
    | long _ _ _ _ _ h => exact h
    | short _ _ _ _ hs => exact absurd (hl.symm.trans hs) (by simp)
  · exact .long hmore hin hend hdel hl

theorem yields_short (hs : it.entry.longFileName = false) :
    d.Yields it found ↔ ∃ rest, found = (d.settle it.clear).current :: rest ∧
      d.Yields (d.settle it.clear).skip rest := by
  constructor
  · intro h
    cases h with
    | done hd => exact absurd (hmore.symm.trans hd) (by simp)
    | cluster _ _ hm => exact absurd hm hend
    | long _ _ _ _ hl => exact absurd (hl.symm.trans hs) (by simp)
    | short _ _ _ _ _ h => exact ⟨_,rfl,h⟩
  · rintro ⟨rest,rfl,h⟩
    exact .short hmore hin hend hdel hs h
end

theorem yields_iff_scan (h : Before it rest) (hz : ∀ e ∈ rest, e.mark = 0 → e = .zero)
    (pairs : List (ClusterEntry × List (BitVec 8))) :
    (∃ found, d.Yields it found ∧ found.map Found.pair = pairs) ↔
      scan it.pending rest = some pairs := by
  induction rest generalizing it pairs with
  | nil =>
    have hn (found) := not_yields_stray (d := d) found h.more (.inl (drop_eq_nil_iff.mp h.rest))
    simp [hn,scan]
  | cons e rest ih =>
    have he : it.entry = e := h.entry
    have hin := h.stays (d := d) (hz e mem_cons_self)
    rw [scan]
    by_cases hend : e.mark = 0
    · have hla := he.trans (hz e mem_cons_self hend)
      simp only [yields_end h.more hin hla,exists_eq_left,map_nil,if_pos hend,some.injEq]
    rw [if_neg hend]
    by_cases hdel : e.mark = 0xe5
    · have hn (found) := not_yields_deleted (d := d) found h.more (he ▸ hdel)
      simp [hn,hdel]
    rw [if_neg hdel]
    have hr : ∀ e ∈ rest, e.mark = 0 → e = .zero := fun e' he' => hz e' (mem_cons_of_mem _ he')
    by_cases hl : e.longFileName = true
    · rw [if_pos hl,← he,← pending_extend,← ih h.extend hr]
      simp [yields_long h.more hin (he ▸ hend) (he ▸ hdel) (he ▸ hl)]
    rw [if_neg hl]
    have hs : it.entry.longFileName = false := by
      rw [he]
      exact Bool.not_eq_true _ ▸ hl
    simp only [yields_short h.more hin (he ▸ hend) (he ▸ hdel) hs,map_eq_some_iff]
    constructor
    · rintro ⟨found,⟨tail,rfl,ht⟩,rfl⟩
      refine ⟨tail.map Found.pair,(ih h.settle hr _).mp ⟨tail,ht,rfl⟩,?_⟩
      rw [map_cons,settle_pair,he]
    rintro ⟨tail,ht,rfl⟩
    obtain ⟨found,hf,rfl⟩ := (ih h.settle hr tail).mpr ht
    refine ⟨_,⟨found,rfl,hf⟩,?_⟩
    rw [map_cons,settle_pair,he]
end

section
variable {name : List (BitVec 16)} {parts : List ClusterEntry}
@[simp] theorem characters_length (e : ClusterEntry) : e.characters.length = 26 := by simp [characters,slice]

@[simp] theorem nameBytes_length (name : List (BitVec 16)) :
    (nameBytes name).length = 2 * name.length := by simp [nameBytes,mul_comm]

theorem nameBytes_append (a b : List (BitVec 16)) : nameBytes (a ++ b) = nameBytes a ++ nameBytes b := flatMap_append

theorem nameBytes_get (name : List (BitVec 16)) (i : Nat) :
    (nameBytes name)[2 * i]? = name[i]?.map (·.setWidth 8) ∧ (nameBytes name)[2 * i+1]? =
      name[i]?.map fun c : BitVec 16 => (c >>> 8).setWidth 8 := by
  induction name generalizing i with
  | nil => simp [nameBytes]
  | cons c name ih =>
    cases i with
    | zero => simp [nameBytes]
    | succ i =>
      rw [nameBytes,flatMap_cons,Nat.mul_succ,getElem?_append_right (by simp), getElem?_append_right (by simp)]
      exact ih i

theorem eq_zero_of_bytes {c : BitVec 16} (hl : c.setWidth 8 = 0) (hh : (c >>> 8).setWidth 8 = 0) : c = 0 := by
  have hl' : c.toNat % 2^8 = 0 := by simpa using congrArg BitVec.toNat hl
  have hh' : c.toNat >>> 8 % 2^8 = 0 := by simpa using congrArg BitVec.toNat hh
  rw [Nat.shiftRight_eq_div_pow] at hh'
  have hz : c.toNat = 0 := by omega
  apply BitVec.eq_of_toNat_eq
  rw [hz]
  rfl

theorem trim_begins (bytes : List (BitVec 8)) : trimLongFileName bytes <+: bytes := by
  unfold trimLongFileName
  have hd := rdropWhile_prefix (· == (0xff : BitVec 8)) bytes
  dsimp only
  split
  · exact .trans ( take_prefix _ _) hd
  · exact hd

theorem trim_length (bytes : List (BitVec 8)) :
    (trimLongFileName bytes).length+2 ≤ bytes.length ∨ (trimLongFileName bytes).length ≤ 2 := by
  have hb := rdropWhile_prefix (· == (0xff : BitVec 8)) bytes
  have hd := hb.length_le
  unfold trimLongFileName
  dsimp only
  split
  · rw [length_take]
    omega
  · omega

theorem rdropWhile_append_of_pos {α : Type} {p : α → Bool} {l r : List α}
    (h : ∀ x ∈ r, p x = true) : (l ++ r).rdropWhile p = l.rdropWhile p := by
  rw [rdropWhile,reverse_append, dropWhile_append_of_pos fun x hx => h x (mem_reverse.mp hx),rdropWhile]

theorem trim_padded (hpo : 0 < name.length) (hs : name.length < 13) :
    trimLongFileName (nameBytes (padded name)) = nameBytes name := by
  have hm : name.length % 13 ≠ 0 := by omega
  have hb : nameBytes (padded name) = ((nameBytes name ++ [0]) ++ [0]) ++
      nameBytes (replicate (12-name.length % 13) 0xffff) := by
    rw [padded,if_neg hm,nameBytes_append]
    simp [nameBytes]
  have hp : ∀ x ∈ nameBytes (replicate (12-name.length % 13) 0xffff), (x == (0xff : BitVec 8)) = true := by
    intro x hx
    simp only [nameBytes,mem_flatMap,mem_replicate] at hx
    obtain ⟨c,⟨-,rfl⟩,hx⟩ := hx
    revert x
    decide
  have hd : (nameBytes (padded name)).rdropWhile (· == (0xff : BitVec 8)) = (nameBytes name ++ [0]) ++ [0] := by
    rw [hb,rdropWhile_append_of_pos hp,rdropWhile_concat_neg]
    decide
  have hl : ((nameBytes name ++ [0]) ++ [0]).length = 2 * name.length+2 := by simp
  rw [trimLongFileName,hd,if_pos (by omega),hl,Nat.add_sub_cancel,append_assoc, take_left' (nameBytes_length name)]

theorem length_characters (parts : List ClusterEntry) :
    (parts.flatMap characters).length = 26 * parts.length := by simp [length_flatMap,mul_comm]

theorem Encodes.nil (h : Encodes [] name) : name = [] := by
  have hc := h.count
  rw [length_nil] at hc
  exact length_eq_zero_iff.mp (by omega)

section
variable {p : ClusterEntry} {ps : List ClusterEntry} (h : Encodes (p :: ps) name)
include h
theorem Encodes.closing
    (hm : name.length % 13 ≠ 0) : p.characters[2 * (name.length % 13)]? = some 0 ∧
      p.characters[2 * (name.length % 13)+1]? = some 0 := by
  have hco : ps.length+1 = (name.length+12) / 13 := h.count
  have hc : ps.reverse.flatMap ClusterEntry.characters ++ p.characters = nameBytes (padded name) := by
    rw [← h.characters]
    simp
  have hl : (ps.reverse.flatMap ClusterEntry.characters).length = 26 * ps.length := by
    rw [length_characters,length_reverse]
  have hp : 2 * name.length = 26 * ps.length+2 * (name.length % 13) := by omega
  have hz : (padded name)[name.length]? = some 0 := by
    rw [padded,if_neg hm]
    simp
  have hi (i : Nat) : p.characters[i]? = (nameBytes (padded name))[26 * ps.length+i]? := by
    rw [← hc,getElem?_append_right (by omega),hl,Nat.add_sub_cancel_left]
  rw [hi,hi,← add_assoc,← hp,(nameBytes_get _ _).1,(nameBytes_get _ _).2,hz]
  decide

theorem Encodes.not_begins (hl : 13 ≤ name.length) (hm : name.length % 13 ≠ 0) :
    ¬ nameBytes name <+: (p :: ps).flatMap ClusterEntry.characters := by
  rintro ⟨rest,hr⟩
  obtain ⟨hlo,hh⟩ := h.closing hm
  have hin (i : Nat) (hi : i < 26) : (nameBytes name)[i]? = p.characters[i]? := by
    have hc := congrArg (·[i]?) hr
    simp only [flatMap_cons] at hc
    rwa [getElem?_append_left (by rw [nameBytes_length]; omega),
      getElem?_append_left (by rwa [characters_length])] at hc
  have hk : name.length % 13 < name.length := by omega
  have hch := getElem?_eq_getElem hk
  rw [← hin _ (by omega),(nameBytes_get _ _).1,hch] at hlo
  rw [← hin _ (by omega),(nameBytes_get _ _).2,hch] at hh
  have hz := eq_zero_of_bytes (some.inj hlo) (some.inj hh)
  exact (h.legal _ (getElem_mem hk)).1 hz
end

theorem Encodes.trim_iff (h : Encodes parts name) :
    trimLongFileName (parts.flatMap ClusterEntry.characters) = nameBytes name ↔
      name.length < 13 := by
  have hc := h.count
  constructor
  · intro heq
    by_contra hl
    have hle := length_characters parts
    have ht := trim_length (parts.flatMap ClusterEntry.characters)
    have hb := trim_begins (parts.flatMap ClusterEntry.characters)
    rw [heq] at ht hb
    rw [nameBytes_length] at ht
    cases parts with
    | nil =>
      rw [length_nil] at hc
      omega
    | cons p ps =>
      by_cases hmo : name.length % 13 = 0
      · omega
      · exact h.not_begins (not_lt.mp hl) hmo hb
  · intro hs
    match parts, h with
    | [], h =>
      rw [h.nil]
      rfl
    | [p], h =>
      have hp : 0 < name.length := by
        have ho : 1 = (name.length+12) / 13 := h.count
        omega
      have hch : [p].flatMap ClusterEntry.characters = nameBytes (padded name) := h.characters
      rw [hch,trim_padded hp hs]
    | p :: q :: rest, h =>
      have hm : rest.length+1+1 = (name.length+12) / 13 := h.count
      omega

theorem Encodes.trim_tail_ne {p : ClusterEntry} {ps : List ClusterEntry}
    (h : Encodes (p :: ps) name) :
    trimLongFileName (ps.flatMap ClusterEntry.characters) ≠ nameBytes name := by
  intro heq
  have hc : ps.length+1 = (name.length+12) / 13 := h.count
  have hl := length_characters ps
  have hb := (trim_begins (ps.flatMap ClusterEntry.characters)).length_le
  rw [heq,nameBytes_length] at hb
  omega
end

/-- The items that the iterator gets right when `room` entries of the cluster are left: files
with short names that leave room for a zero entry. -/
def Fits : (room : Nat) → List Item → Prop
  | room, [] => 0 < room
  | _, .deleted _ _ :: _ => False
  | room, .live file :: rest =>
    file.parts.length+1 ≤ room ∧ file.name.length < 13 ∧ Fits (room-(file.parts.length+1)) rest

section
variable {items : List Item} {file : LiveEntry} {e short : ClusterEntry}
  {parts tail : List ClusterEntry} {room unused : Nat}
theorem orderByte_mark : ∀ i < 20, ∀ parts < 21, orderByte i parts ≠ 0 ∧ orderByte i parts ≠ 0xe5 := by decide

theorem Encodes.marks {name : List (BitVec 16)} (h : Encodes parts name) (he : e ∈ parts) :
    e.mark ≠ 0 ∧ e.mark ≠ 0xe5 := by
  obtain ⟨i,hi⟩ := getElem?_of_mem (mem_reverse.mpr he)
  have hlt : i < parts.length := by
    rw [← length_reverse]
    exact (List.getElem?_eq_some_iff.mp hi).1
  have hl := h.limit
  rw [h.order i e hi]
  exact orderByte_mark i (by omega) parts.length (by omega)

/-- Entries of a long name, as the iterator reads over them. -/
def Parts (parts : List ClusterEntry) : Prop := ∀ e ∈ parts, e.mark ≠ 0 ∧ e.mark ≠ 0xe5 ∧ e.longFileName = true

theorem LiveEntry.isParts (file : LiveEntry) : Parts file.parts :=
  fun e he => ⟨(file.encodes.marks he).1,(file.encodes.marks he).2,file.encodes.long e he⟩

theorem scan_zeros (name : List (BitVec 8)) (n : Nat) :
    scan name (replicate n .zero) = if 0 < n then some [] else none := by
  cases n with
  | zero => rfl
  | succ n => rfl

theorem scan_parts (name : List (BitVec 8)) (h : Parts parts) :
    scan name (parts ++ tail) = scan (name ++ parts.flatMap characters) tail := by
  induction parts generalizing name with
  | nil => simp
  | cons e parts ih =>
    obtain ⟨hend,hdel,hl⟩ := h e mem_cons_self
    rw [cons_append,scan,if_neg hend,if_neg hdel,if_pos hl,
      ih _ fun e he => h e (mem_cons_of_mem _ he),flatMap_cons,append_assoc]

theorem scan_file (h : Parts parts) (hend : short.mark ≠ 0) (hdel : short.mark ≠ 0xe5)
    (hs : short.longFileName = false) (hr : parts.length+1 ≤ room) :
    scan [] ((parts ++ [short] ++ tail).take room) =
      (scan [] (tail.take (room-(parts.length+1)))).map
        ((short, trimLongFileName (parts.flatMap characters)) :: ·) := by
  have ht : (parts ++ [short] ++ tail).take room = parts ++ short :: tail.take (room-(parts.length+1)) := by
    rw [take_append,take_of_length_le (by simpa using hr)]
    simp
  rw [ht,scan_parts [] h,scan,if_neg hend,if_neg hdel,if_neg (by simp [hs]),nil_append]

theorem scan_cut (h : Parts parts) (hr : room < parts.length+1) :
    scan [] ((parts ++ [short] ++ tail).take room) = none := by
  have ht : (parts ++ [short] ++ tail).take room = parts.take room ++ [] := by
    rw [append_assoc,take_append_of_le_length (by omega),append_nil]
  rw [ht,scan_parts [] fun e he => h e (mem_of_mem_take he)]
  rfl

theorem scan_deleted (hdel : e.mark = 0xe5) : scan [] ((e :: tail).take room) = none := by
  have hend : e.mark ≠ 0 := by
    rw [hdel]
    decide
  cases room with
  | zero => rfl
  | succ room => rw [take_succ_cons,scan,if_neg hend,if_pos hdel]

theorem filterMap_deleted (e : ClusterEntry) (he : e.mark = 0xe5) (items : List Item) :
    (Item.deleted e he :: items).filterMap Item.listed = items.filterMap Item.listed := rfl

theorem filterMap_live (file : LiveEntry) (items : List Item) :
    (Item.live file :: items).filterMap Item.listed =
      (file.short,nameBytes file.name) :: items.filterMap Item.listed := rfl

def laidOut (items : List Item) (unused : Nat) : List ClusterEntry :=
  items.flatMap Item.entries ++ replicate unused .zero

theorem laidOut_cons (item : Item) (items : List Item) (unused : Nat) :
    laidOut (item :: items) unused = item.entries ++ laidOut items unused := by simp [laidOut]

theorem scan_live : scan [] ((laidOut (.live file :: items) unused).take room) =
    if file.parts.length+1 ≤ room then
      (scan [] ((laidOut items unused).take (room-(file.parts.length+1)))).map
        ((file.short, trimLongFileName (file.parts.flatMap characters)) :: ·)
    else none := by
  rw [laidOut_cons,Item.entries]
  split
  · next hr => exact scan_file file.isParts file.present file.live file.isShort hr
  · next hr => exact scan_cut file.isParts (not_le.mp hr)

theorem scan_length {pairs : List (ClusterEntry × List (BitVec 8))}
    (h : scan [] ((laidOut items unused).take room) = some pairs) :
    pairs.length ≤ (items.filterMap Item.listed).length := by
  induction items generalizing room pairs with
  | nil =>
    rw [laidOut,flatMap_nil,nil_append,take_replicate,scan_zeros] at h
    split at h <;> cases h
    exact Nat.zero_le _
  | cons item items ih =>
    cases item with
    | deleted e he =>
      rw [laidOut_cons,Item.entries,singleton_append,scan_deleted he] at h
      cases h
    | live file =>
      rw [scan_live] at h
      split at h
      · obtain ⟨tail,ht,rfl⟩ := map_eq_some_iff.mp h
        have hl := ih ht
        simpa [Item.listed] using hl
      · cases h

theorem scan_items (hl : room ≤ (laidOut items unused).length) :
    scan [] ((laidOut items unused).take room) = some (items.filterMap Item.listed) ↔
      Fits room items := by
  induction items generalizing room with
  | nil =>
    rw [laidOut,flatMap_nil,nil_append,length_replicate] at hl
    rw [laidOut,flatMap_nil,nil_append,take_replicate,scan_zeros,min_eq_left hl]
    simp [Fits]
  | cons item items ih =>
    cases item with
    | deleted e he =>
      rw [laidOut_cons,Item.entries,singleton_append,scan_deleted he]
      simp [Fits]
    | live file =>
      rw [laidOut_cons,Item.entries,length_append,length_append,length_singleton] at hl
      rw [scan_live,Fits,← ih (by omega),← file.encodes.trim_iff,filterMap_live]
      split
      · next hr =>
        rw [map_eq_some_iff]
        constructor
        · rintro ⟨tail,ht,heq⟩
          obtain ⟨hh,rfl⟩ := cons.inj heq
          exact ⟨hr,(Prod.mk.inj hh).2,ht⟩
        · rintro ⟨-,hn,ht⟩
          exact ⟨_,ht,by rw [hn]⟩
      · next hr => simp [hr]

/-- The first entry is not looked at, so a file at the start of a directory is lost or gets a
wrong name. -/
theorem scan_skipped : scan [] (((laidOut (.live file :: items) unused).take room).drop 1) ≠
    some ((Item.live file :: items).filterMap Item.listed) := by
  intro h
  rw [drop_take,laidOut_cons,Item.entries,filterMap_live] at h
  cases hp : file.parts with
  | nil =>
    rw [hp] at h
    have hl := scan_length h
    rw [length_cons] at hl
    omega
  | cons p ps =>
    have hen := file.encodes
    have hps := file.isParts
    rw [hp] at h hen hps
    have ht : Parts ps := fun e he => hps e (mem_cons_of_mem _ he)
    rw [cons_append,cons_append,drop_succ_cons,drop_zero] at h
    by_cases hr : ps.length+1 ≤ room-1
    · rw [scan_file ht file.present file.live file.isShort hr,map_eq_some_iff] at h
      obtain ⟨tail,-,heq⟩ := h
      exact hen.trim_tail_ne (Prod.mk.inj (cons.inj heq).1).2
    · rw [scan_cut ht (not_le.mp hr)] at h
      cases h

theorem laidOut_zero (he : e ∈ laidOut items unused) (hend : e.mark = 0) : e = .zero := by
  rcases mem_append.mp he with hi | hz
  · exfalso
    obtain ⟨item,-,hi⟩ := mem_flatMap.mp hi
    cases item with
    | deleted e' he' =>
      obtain rfl := mem_singleton.mp hi
      rw [hend] at he'
      exact absurd he' (by decide)
    | live file =>
      rcases mem_append.mp hi with hp | hs
      · exact (file.encodes.marks hp).1 hend
      · obtain rfl := mem_singleton.mp hs
        exact file.present hend
  · exact eq_of_mem_replicate hz
end

theorem Directory.first_eq {d : FileAllocationTableDriver} (directory : d.Directory) :
    d.clusterEntries directory.first = (laidOut directory.items
      directory.unused).take (d.clusterEntries directory.first).length := by
  rw [laidOut,← directory.contents,flatMap_cons,take_left]

theorem listing_iff_scan {d : FileAllocationTableDriver} (directory : d.Directory)
    (pairs : List (ClusterEntry × List (BitVec 8))) :
    (∃ fuel found, d.forEachDirEntryIn fuel directory.first = some found ∧
      found.map Found.pair = pairs) ↔ scan [] (((laidOut directory.items directory.unused).take
        (d.clusterEntries directory.first).length).drop 1) = some pairs := by
  have hc := directory.first_eq
  have hb : Before (d.opened directory.first) ((d.clusterEntries directory.first).drop 1) := ⟨rfl,rfl⟩
  have hz : ∀ e ∈ (d.clusterEntries directory.first).drop 1, e.mark = 0 → e = .zero := by
    intro e he
    have hm := mem_of_mem_drop he
    rw [hc] at hm
    exact laidOut_zero (mem_of_mem_take hm)
  have hs := yields_iff_scan (d := d) hb hz pairs
  have hp : (d.opened directory.first).pending = [] := rfl
  rw [exists_comm]
  simp only [exists_and_right,forEach_iff]
  rw [hs,hp,← congrArg (drop 1) hc]

/-- A directory with a zero entry in its first cluster, that is empty or starts with a deleted entry,
behind which there are only files with long names of fewer than 13 characters. -/
def Directory.Plain {d : FileAllocationTableDriver} (directory : d.Directory) : Prop :=
  match directory.items with
  | [] => Fits ((d.clusterEntries directory.first).length-1) []
  | .deleted _ _ :: rest => Fits ((d.clusterEntries directory.first).length-1) rest
  | .live _ :: _ => False

def oneFileVolume : FileAllocationTableDriver :=
  smallVolume [(515,0xff),(516,0x0f),(1024,0x41),(1025,0x20),(1026,0x20),(1027,0x20),
    (1028,0x20),(1029,0x20),(1030,0x20),(1031,0x20),(1032,0x20),(1033,0x20),
    (1034,0x20),(1035,0x20)]

def fileA : LiveEntry where
  name := []
  parts := []
  short := fun k => if k.val = 0 then 0x41 else if k.val < 12 then 0x20 else 0
  encodes := ⟨rfl,by decide,by simp,by simp,rfl,by simp⟩
  present := by decide
  live := by decide
  isShort := by decide

theorem oneFile_chain : oneFileVolume.ClusterChain [2] where
  nonempty := cons_ne_nil _ _
  nodup := nodup_singleton _
  inside := by
    have ht : oneFileVolume.br.totalClusters = 98 := by decide
    intro c hc
    rw [mem_singleton.mp hc,ht]
    decide
  linked := by simp
  ends := by
    have hl : (oneFileVolume.fatEntry 2).2 = false := by decide
    intro c hc
    obtain rfl : 2 = c := by simpa using hc
    exact hl

def oneFile : oneFileVolume.Directory where
  first := 2
  rest := []
  chain := oneFile_chain
  items := [.live fileA]
  unused := 15
  contents := by decide

end LensorOS.Storage.FileAllocationTableDriver
