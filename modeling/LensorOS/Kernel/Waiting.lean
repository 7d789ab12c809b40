import LensorOS.Kernel.CallEffects
import LensorOS.Scheduler.Sleepers

/-!
# Wake-ups

What a step of the kernel does to the processes that wait, and that each wake-up finds its process
asleep on the object it is woken up for.
-/
namespace LensorOS.Kernel
open Framework Storage Scheduler Scheduler.State List Option Function
/-- The processes listed to be woken up, by drivers or by a process. -/
def lists (a : Scheduler.State) (d : Drivers) : WaitObject → List Nat
  | .exitOf pid => a.waiters pid
  | object => d.listed object

section
variable {a b : Scheduler.State} {d d' : Drivers} {object : WaitObject} {pid : Nat} {pids : List Nat}
theorem exit_or_driver (object : WaitObject) : (∃ pid, object = .exitOf pid) ∨ ∀ pid, object ≠ .exitOf pid := by
  cases object <;> simp

theorem lists_driver (h : ∀ pid, object ≠ .exitOf pid) : lists a d object = d.listed object := by
  cases object with
  | exitOf pid => exact absurd rfl (h pid)
  | _ => rfl

theorem listed_driver (h : pid ∈ d.listed object) : ∀ pid, object ≠ .exitOf pid := by
  rintro pid rfl
  cases h

theorem lists_same (h : b.waiters = a.waiters) : lists b d = lists a d := by
  funext o
  cases o with
  | exitOf pid => exact congrFun h pid
  | _ => rfl

theorem drains_lists {wakes : List (Nat × WaitObject)} (h : Drains d.listed d'.listed wakes) :
    Drains (lists a d) (lists a d') wakes where
  kept := by
    intro o
    rcases exit_or_driver o with ⟨pid,rfl⟩ | ho
    · exact .inl rfl
    · rw [lists_driver ho,lists_driver ho]
      exact h.kept o
  woken := by
    intro wake hw
    obtain ⟨hm,he⟩ := h.woken wake hw
    rw [lists_driver (listed_driver hm),lists_driver (listed_driver hm)]
    exact ⟨hm,he⟩
  once := by
    intro hl
    apply h.once
    intro o
    rcases exit_or_driver o with ⟨pid,rfl⟩ | ho
    · exact nodup_nil
    · exact lists_driver ho ▸ hl o

theorem lists_update (h : ∀ pid, object ≠ .exitOf pid)
    (hl : d'.listed = update d.listed object pids) :
    lists a d' = update (lists a d) object pids := by
  funext o
  rcases exit_or_driver o with ⟨pid,rfl⟩ | ho
  · rw [update_of_ne (h pid).symm]
    rfl
  rw [lists_driver ho,hl]
  by_cases he : o = object
  · rw [he,update_self,update_self]
  · rw [update_of_ne he,update_of_ne he,lists_driver ho]

theorem lists_waiters (h : b.waiters = update a.waiters pid pids) :
    lists b d = update (lists a d) (.exitOf pid) pids := by
  funext o
  rcases exit_or_driver o with ⟨pid',rfl⟩ | ho
  · change b.waiters pid' = _
    rw [h]
    by_cases he : pid' = pid
    · rw [he,update_self,update_self]
    · rw [update_of_ne he,update_of_ne (by simpa using he)]
      rfl
  · rw [update_of_ne (ho pid),lists_driver ho,lists_driver ho]
end

namespace State
variable {s s' : State} {p : Process} {call : Call} {v : VFS} {pid : Nat} {a : Scheduler.State}
  {request : VFS.Call} {status : BitVec 32}
inductive Answers (s : State) (call : Call) (v : VFS) : Prop
  | acts (h : VFS.Acts s.vfs v)
  | returns {p : Process} {request : VFS.Call} {value : Int} (hcall : call = .file request)
      (hcaller : s.caller = some p) (h : VFS.Does s.vfs p.processID request (.returned value) v)

/-- What a call does in the filesystem whose caller goes to sleep. -/
inductive Blocks (s : State) (call : Call) (p : Process) (v : VFS) : WaitObject → Prop
  | listed {request : VFS.Call} {effect : Effect} {object : WaitObject}
      (hcall : call = .file request)
      (hmoved : s.vfs.transfer p.processID request = some effect)
      (hreply : effect.reply = .blocks object) (hdrv : v.drivers = effect.drivers)
      (hclosed : v.closed = s.vfs.closed) : Blocks s call p v object
  | unlisted {object : WaitObject} (h : VFS.Acts s.vfs v)
      (hobject : object = .replacement ∨ ∃ socket, object = .connection socket) :
      Blocks s call p v object

/-- The wake-ups of the drivers are carried out, and a process is resumed. -/
def Settles (a : Scheduler.State) (v : VFS) (s' : State) : Prop := s'.vfs = { v with wakes := [] } ∧
    ∃ b, Wakens (pairs v.wakes) a b ∧ SameSleep b s'.scheduler

inductive Goes (s : State) (call : Call) (s' : State) : Prop
  | answers (a : Scheduler.State) (v : VFS) (hbefore : SameWaits s.scheduler a)
      (hanswer : Answers s call v) (hafter : Settles a v s')
  | exits (p : Process) (status : BitVec 32) (v : VFS) (hcaller : s.caller = some p)
      (hacts : VFS.Acts s.vfs v)
      (hafter : Settles (s.scheduler.readCurrent.removeProcess p.processID status) v s')
  | blocks (p : Process) (object : WaitObject) (rax : BitVec 64) (a : Scheduler.State) (v : VFS)
      (hcaller : s.caller = some p) (hblocks : Blocks s call p v object)
      (hbefore : a.process = s.scheduler.process ∧ a.wakes = s.scheduler.wakes ∧
        a.ids = s.scheduler.ids)
      (hvfs : s'.vfs = v) (hwakes : v.wakes = []) (hblock : a.block p object rax = some s'.scheduler)
  | waits (p q : Process) (pid : Nat) (hcaller : s.caller = some p)
      (hq : s.scheduler.process pid = some q) (hvfs : s'.vfs = s.vfs)
      (hafter : SameSleep (s.scheduler.readCurrent.asleepIn p.processID pid) s'.scheduler)

section
theorem wakens_settle (a : Scheduler.State) (wakes : List WakeUp) :
    Wakens (pairs wakes) a (wakes.foldl (fun scheduler wake =>
      scheduler.unblock wake.cause wake.returnValue wake.pid) a) := by
  induction wakes generalizing a with
  | nil => exact .nil a
  | cons wake wakes ih => exact .cons wake.returnValue (ih _)

theorem settles_settle (a : Scheduler.State) (v : VFS) (booted : Bool) :
    Settles a v (settle ⟨a,v,booted⟩) := ⟨rfl,_,wakens_settle a v.wakes,.refl _⟩

theorem settled_eq (h : v.wakes = []) : ({ v with wakes := [] } : VFS) = v := by rw [← h]

theorem Settles.none (hw : v.wakes = []) (hv : s'.vfs = v)
    (hs : SameSleep a s'.scheduler) : Settles a v s' := by
  refine ⟨hv.trans (settled_eq hw).symm,a,?_,hs⟩
  rw [hw]
  exact .nil a

theorem Settles.after {s1 : State} (h : Settles a v s1)
    (hv : s'.vfs = s1.vfs) (hs : SameSleep s1.scheduler s'.scheduler) :
    Settles a v s' := by
  obtain ⟨hv1,b,hw,hb⟩ := h
  exact ⟨hv.trans hv1,b,hw,hb.trans hs⟩

theorem fileCall_goes (hsound : Sound s) (hsettled : s.vfs.wakes = [])
    (hl : ∀ fd f, s.vfs.files.get fd = some f → 0 < s.vfs.refCount f)
    (hp : s.caller = some p) (hst : s.fileCall p request = some s') : Goes s (.file request) s' := by
  have hd := VFS.call_does hsound.consistent hl p.processID request
  unfold fileCall at hst
  generalize s.vfs.call p.processID request = result at hd hst
  obtain ⟨result,v⟩ := result
  cases result with
  | returned value =>
    cases hst
    exact .answers _ v (sameSleep_current s.scheduler).sameWaits (.returns rfl hp hd)
      (settles_settle _ v s.booted)
  | blocked object rax =>
    obtain ⟨scheduler,hbl,rfl⟩ := map_eq_some_iff.mp hst
    have hb : v.wakes = [] ∧ Blocks s (.file request) p v object := by
      cases hd with
      | @waits effect object rax v hm hr hdr hw hc =>
        refine ⟨?_,.listed rfl hm hr hdr hc⟩
        rw [hw,hsettled,nil_append]
        exact VFS.transfer_wakes hm hr
      | accepts ha hw => exact ⟨hw.trans hsettled,.unlisted ha (.inr ⟨_,rfl⟩)⟩
    have hs : settle ⟨s.scheduler.readCurrent,v,s.booted⟩ = ⟨s.scheduler.readCurrent,v,s.booted⟩ := by
      simp [settle,hb.1,settled_eq hb.1]
    rw [hs] at hbl ⊢
    exact .blocks p object rax s.scheduler.readCurrent v hp hb.2 ⟨rfl,rfl,rfl⟩ rfl hb.1 hbl

theorem exit_goes (hsound : Sound s) {next : Option Nat} (hp : s.caller = some p)
    (hst : s.exit p status next = some s') : Goes s (.exit status next) s' := by
  obtain ⟨scheduler,hs,rfl⟩ := map_eq_some_iff.mp hst
  obtain ⟨hpr,-,-,hn⟩ := caller_spec hp
  have hw := (sameIds_current s.scheduler).wellformed hsound.wellformed
  have hp' := hpr
  have hr := hw.removeProcess hp' hn status
  have hi := (sameIds_settle ⟨s.scheduler.readCurrent.removeProcess p.processID status,
    s.vfs.destroy p.processID,s.booted⟩).wellformed hr
  have hre := sameSleep_fromFreed hi.unique hs
  exact .exits p status _ hp (VFS.acts_erases.destroy s.vfs [] p.processID)
    ((settles_settle _ _ s.booted).after rfl hre)

variable (hsound : Sound s) (hsettled : s.vfs.wakes = [])
include hsound hsettled
theorem exec_goes {path : List Char} {loaded : Bool} (hp : s.caller = some p)
    (hst : s.exec p path loaded = some s') : Goes s (.exec path loaded) s' := by
  have ho := VFS.acts_erases.open s.vfs [] p.processID path
  have hw := (VFS.wakes_open s.vfs p.processID path).trans hsettled
  unfold exec at hst
  generalize s.vfs.open p.processID path = opened at ho hw hst
  obtain ⟨procfd,v⟩ := opened
  cases procfd with
  | none =>
    cases hst
    exact .answers s.scheduler v (SameSleep.refl _).sameWaits (.acts ho) (.none hw rfl (.refl _))
  | some procfd =>
    cases loaded with
    | false =>
      obtain ⟨scheduler,hb,rfl⟩ := map_eq_some_iff.mp hst
      exact .blocks p .replacement p.rax s.scheduler v hp (.unlisted ho (.inl rfl)) ⟨rfl,rfl,rfl⟩ rfl hw hb
    | true =>
      obtain ⟨scheduler,hs,rfl⟩ := map_eq_some_iff.mp hst
      have hc := ho.trans (VFS.acts_erases.close v [] p.processID procfd)
      generalize v.close p.processID procfd = v' at hc hs
      have hi := (sameIds_settle ⟨s.scheduler,v',s.booted⟩).wellformed hsound.wellformed
      have hr := (sameSleep_current _).trans (sameSleep_switch hi.unique hs)
      exact .answers s.scheduler v' (SameSleep.refl _).sameWaits (.acts hc)
        ((settles_settle _ v' s.booted).after rfl hr)

theorem fork_goes (p : Process) (cloned : Bool) : Goes s (.fork cloned) (s.fork p cloned) := by
  have hs := sameWaits_fork hsound.wellformed p cloned
  cases cloned with
  | false =>
    exact .answers _ s.vfs hs (.acts (.refl _)) (.none hsettled rfl (.refl _))
  | true =>
    have ht : VFS.Acts s.vfs (s.vfs.addTable (s.scheduler.thePid+1)) := .same rfl rfl rfl rfl
    exact .answers _ _ hs (.acts (ht.trans (VFS.acts_erases.copyDescriptors _ [] _ _)))
      (.none ((VFS.wakes_copyDescriptors _ _ _).trans hsettled) rfl (.refl _))

theorem create_goes (hb : s.booted = false) (path : List Char) (loaded : Bool) :
    Goes s (.create path loaded) (s.create path loaded) := by
  have ho := VFS.acts_erases.open s.vfs [] 0 path
  have hw := (VFS.wakes_open s.vfs 0 path).trans hsettled
  have hst := (VFS.stdin_open s.vfs 0 path).trans (hsound.booting hb).1
  unfold create
  generalize s.vfs.open 0 path = opened at ho hw hst
  obtain ⟨procfd,v⟩ := opened
  cases procfd with
  | none =>
    exact .answers s.scheduler v (SameSleep.refl _).sameWaits (.acts ho) (.none hw rfl (.refl _))
  | some procfd =>
    have hsa := sameWaits_create hsound.wellformed loaded
    have hc : VFS.Acts s.vfs ((if loaded then v.openStandard (s.scheduler.thePid+1) else v).close 0 procfd) := by
      cases loaded with
      | false => exact ho.trans (VFS.acts_erases.close v [] 0 procfd)
      | true =>
        have hs := ho.trans (VFS.acts_erases.openStandard [] hst (s.scheduler.thePid+1))
        exact hs.trans (VFS.acts_erases.close _ [] 0 procfd)
    exact .answers _ _ hsa (.acts hc) (settles_settle _ _ true)

theorem waitpid_goes {scheduler : Scheduler.State} (hp : s.caller = some p)
    (hs : s.scheduler.waitpid p pid = some scheduler) :
    Goes s (.waitpid pid) { s with scheduler := scheduler } := by
  have hr : ∀ event, Goes s (.waitpid pid)
      { s with scheduler := s.scheduler.readCurrent.record event } := fun event =>
    .answers _ s.vfs (sameSleep_current _).sameWaits (.acts (.refl _))
      (.none hsettled rfl (sameSleep_record _ event))
  unfold waitpid at hs
  dsimp only at hs
  split at hs
  · cases hs
    have hre := (sameSleep_current s.scheduler).trans
      (sameSleep_update _ p.processID (reaped pid)
        (fun _ => rfl) (fun _ => rfl))
    exact .answers _ s.vfs hre.sameWaits (.acts (.refl _)) (.none hsettled rfl (sameSleep_record _ _))
  split at hs
  · cases hs
    exact hr _
  next q hq =>
  have hi : (s.scheduler.readCurrent.asleepIn p.processID pid).ids.Nodup := by
    rw [ids_asleepIn]
    exact hsound.wellformed.unique
  exact .waits p q pid hp hq rfl (sameSleep_switch hi hs)

theorem step_goes (hl : ∀ fd f, s.vfs.files.get fd = some f → 0 < s.vfs.refCount f)
    (hst : s.step call = some s') : Goes s call s' := by
  cases call with
  | create path loaded =>
    obtain ⟨⟨-,hb⟩,hst⟩ := ite_none_right_eq_some.mp hst
    cases hst
    exact create_goes hsound hsettled hb path loaded
  | file request =>
    obtain ⟨p,hp,hst⟩ := bind_eq_some_iff.mp hst
    exact fileCall_goes hsound hsettled hl hp hst
  | exec path loaded =>
    obtain ⟨p,hp,hst⟩ := bind_eq_some_iff.mp hst
    exact exec_goes hsound hsettled hp hst
  | fork cloned =>
    obtain ⟨p,hp,rfl⟩ := map_eq_some_iff.mp hst
    exact fork_goes hsound hsettled p cloned
  | exit status next =>
    obtain ⟨p,hp,hst⟩ := bind_eq_some_iff.mp hst
    exact exit_goes hsound hp hst
  | waitpid pid =>
    obtain ⟨p,hp,hst⟩ := bind_eq_some_iff.mp hst
    obtain ⟨scheduler,hw,rfl⟩ := map_eq_some_iff.mp hst
    exact waitpid_goes hsound hsettled hp hw
  | timer rax =>
    obtain ⟨scheduler,hs,rfl⟩ := map_eq_some_iff.mp hst
    exact .answers s.scheduler s.vfs (SameSleep.refl _).sameWaits (.acts (.refl _))
      (.none hsettled rfl (sameSleep_switchProcess hsound.wellformed.unique hs))
end

/-- Each process on a list sleeps on the object of the list, and every wake-up was right. -/
structure Waiting (s : State) : Prop where
  listed : Listed (lists s.scheduler s.vfs.drivers) s.scheduler.asleepOn
  woken : WokenRightly s.scheduler
  settled : s.vfs.wakes = []

section
variable {a b : Scheduler.State} {d d' : Drivers} {wakes : List (Nat × WaitObject)}
theorem wakens_drained (hl : Listed (lists a d) a.asleepOn) (hwo : WokenRightly a)
    (hd : Drains d.listed d'.listed wakes) (hw : Wakens wakes a b) :
    Listed (lists b d') b.asleepOn ∧ WokenRightly b := by
  have hd := drains_lists (a := a) hd
  constructor
  · rw [lists_same hw.waiters,hw.asleepOn]
    exact hl.drain hd
  refine hw.wokenRightly hwo ?_
  intro before pid cause after hs
  exact hl.asleep_at hd hs

theorem caller_awake (hp : s.caller = some p) : s.scheduler.asleepOn p.processID = none :=
  asleepOn_of_running (caller_spec hp).1 (caller_spec hp).2.2.1

/-- A connection is asked for only while the flag of the server is down, or the process that made
its socket sleeps for a connection to it. -/
def FlagsHold (s : State) (call : Call) (_ : State) : Prop :=
  ∀ procfd address server data, call = .file (.connect procfd address) →
    s.vfs.drivers.getBoundSocket address = some server →
    s.vfs.drivers.sockets[server]? = some data → data.waitingOnConnection = true →
      s.scheduler.asleepOn data.pid = some (.connection server)

def asksConnection : Call → Bool
  | .file (.connect _ _) => true
  | _ => false

theorem Acts.drains {v' : VFS} (h : VFS.Acts v v') : ∃ wakes, v'.wakes = v.wakes ++ wakes ∧
    Drains v.drivers.listed v'.drivers.listed (pairs wakes) := by
  obtain ⟨wakes,hw,hs⟩ := h.served
  exact ⟨wakes,hw,hs.drains⟩

theorem Settles.waiting (ha : Settles a v s')
    (hl : Listed (lists a d) a.asleepOn) (hwo : WokenRightly a)
    (hd : Drains d.listed v.drivers.listed (pairs v.wakes)) : Waiting s' := by
  obtain ⟨hv,b,hw,hr⟩ := ha
  obtain ⟨hl',hw'⟩ := wakens_drained hl hwo hd hw
  have hs := hr.sameWaits
  refine ⟨?_,hs.wokenRightly hw',by rw [hv]⟩
  rw [hv,lists_same hs.waiters,hs.asleepOn]
  exact hl'

section
variable (h : Waiting s)
include h
theorem Waiting.before (hs : SameWaits s.scheduler a) :
    Listed (lists a s.vfs.drivers) a.asleepOn ∧ WokenRightly a := by
  rw [lists_same hs.waiters,hs.asleepOn]
  exact ⟨h.listed,hs.wokenRightly h.woken⟩

theorem Waiting.acts (hs : SameWaits s.scheduler a) (hac : VFS.Acts s.vfs v)
    (ha : Settles a v s') : Waiting s' := by
  obtain ⟨hl,hwo⟩ := h.before hs
  obtain ⟨wakes,hw,hd⟩ := Acts.drains hac
  rw [h.settled,nil_append] at hw
  exact ha.waiting hl hwo (hw ▸ hd)

theorem Waiting.transfers {effect : Effect}
    (hs : SameWaits s.scheduler a) (hm : s.vfs.transfer pid request = some effect)
    (hre : ∀ object, effect.reply ≠ .blocks object) (hac : VFS.Acts (s.vfs.apply effect) v)
    (ha : Settles a v s') : Waiting s' := by
  obtain ⟨hl,hwo⟩ := h.before hs
  obtain ⟨wakes,hw,hdr⟩ := Acts.drains hac
  have hw : v.wakes = effect.wakes ++ wakes := by rw [hw,VFS.apply,h.settled,nil_append]
  refine ha.waiting hl hwo ?_
  rw [hw,pairs_append]
  cases VFS.transfer_transfers hm with
  | drained hn hd hr => exact hd.trans hdr
  | blocked object hb hno hl => exact absurd hb (hre object)

theorem Waiting.connects {server : Nat} {data : SocketData} (hsa : SameWaits s.scheduler a)
    (ha : s.scheduler.asleepOn data.pid = some (.connection server))
    (hac : VFS.Acts (s.vfs.wakeServer server data) v) (haf : Settles a v s') : Waiting s' := by
  obtain ⟨hl,hwo⟩ := h.before hsa
  obtain ⟨wakes,hwa,hd⟩ := Acts.drains hac
  have hp : pairs v.wakes = (data.pid,.connection server) :: pairs wakes := by
    rw [hwa,VFS.wakeServer,h.settled,nil_append,pairs_append,pairs_wakeUps]
    rfl
  obtain ⟨hv,b,hw,hr⟩ := haf
  rw [hp] at hw
  have ha := hsa.asleepOn ▸ ha
  cases hw with
  | cons value rest =>
    have hn : ∀ o, data.pid ∉ lists a s.vfs.drivers o := by
      intro o hi
      have ho := (hl.asleep o _ hi).symm.trans ha
      rw [some.inj ho] at hi
      cases hi
    have hl' := hl.wake hn (.connection server)
    rw [← asleepOn_unblock a (.connection server) value data.pid,
      ← lists_same (waiters_unblock a (.connection server) value data.pid)] at hl'
    have hs : Settles (a.unblock (.connection server) value data.pid)
        { v with wakes := wakes } s' := ⟨hv,b,rest,hr⟩
    exact hs.waiting hl' (hwo.unblock ha value) hd

theorem Waiting.exits (hu : s.scheduler.ids.Nodup)
    (hp : s.caller = some p) (hac : VFS.Acts s.vfs v)
    (haf : Settles (s.scheduler.readCurrent.removeProcess p.processID status) v s') :
    Waiting s' := by
  obtain ⟨hl,hwo⟩ := h.before (sameSleep_current s.scheduler).sameWaits
  obtain ⟨wakes,hwak,hd⟩ := Acts.drains hac
  rw [h.settled,nil_append] at hwak
  obtain ⟨s1,s2,ha,hwa,hlo,hw,hr⟩ := remove_wakens
    (s := s.scheduler.readCurrent) hu (caller_spec hp).1 (caller_awake hp) status
  have hal := Drains.all (lists s.scheduler.readCurrent s.vfs.drivers) (.exitOf p.processID)
  rw [← lists_waiters hwa] at hal
  have hl2 : Listed (lists s2 s.vfs.drivers) s2.asleepOn := by
    rw [lists_same hw.waiters,hw.asleepOn,ha]
    exact hl.drain hal
  have hw1 : WokenRightly s1 := by
    intro wake hwake
    exact hwo wake (hlo ▸ hwake)
  have hw2 : WokenRightly s2 := by
    refine hw.wokenRightly hw1 ?_
    intro before pid cause after hs
    rw [ha]
    exact hl.asleep_at hal hs
  have hsa := hr.sameWaits
  rw [← lists_same hsa.waiters,← hsa.asleepOn] at hl2
  exact haf.waiting hl2 (hsa.wokenRightly hw2) (hwak ▸ hd)

theorem Waiting.waits {q : Process} (hp : s.caller = some p)
    (hq : s.scheduler.process pid = some q) (hv : s'.vfs = s.vfs)
    (haf : SameSleep (s.scheduler.readCurrent.asleepIn p.processID pid) s'.scheduler) :
    Waiting s' := by
  obtain ⟨ha,hw⟩ := asleep_sleeps (s := s.scheduler.readCurrent) (caller_spec hp).1 hq
  obtain ⟨hl,hwo⟩ := h.before (sameSleep_current s.scheduler).sameWaits
  have haw : s.scheduler.readCurrent.asleepOn p.processID = none := caller_awake hp
  have hn : p.processID ∉ lists s.scheduler.readCurrent s.vfs.drivers (.exitOf pid) := by
    intro hi
    rw [hl.asleep _ _ hi] at haw
    cases haw
  have hs := (hl.sleep haw (.exitOf pid)).append (i := p.processID) (by simp) hn
  have hsa := haf.sameWaits
  refine ⟨?_,hsa.wokenRightly hwo,hv ▸ h.settled⟩
  rw [hv,hsa.asleepOn,lists_same hsa.waiters,ha,lists_waiters hw]
  exact hs

theorem Waiting.blocks {object : WaitObject} {rax : BitVec 64}
    (hun : s.scheduler.ids.Nodup) (hp : s.caller = some p) (hb : Blocks s call p v object)
    (hbe : a.process = s.scheduler.process ∧ a.wakes = s.scheduler.wakes ∧
      a.ids = s.scheduler.ids) (hv : s'.vfs = v) (hwa : v.wakes = [])
    (hbl : a.block p object rax = some s'.scheduler) : Waiting s' := by
  obtain ⟨hpr,hlo,hi⟩ := hbe
  have hs : SameWaits s.scheduler a :=
    ⟨by funext x; rw [asleepOn,hpr]; rfl,by funext x; rw [waiters,hpr]; rfl,hlo⟩
  obtain ⟨hl,hwo⟩ := h.before hs
  have haw := hs.asleepOn ▸ caller_awake hp
  have hp' := hpr ▸ (caller_spec hp).1
  obtain ⟨ha,hw,hl'⟩ := block_sleeps (hi ▸ hun) hp' hbl
  have hw' : WokenRightly s'.scheduler := by
    intro wake hwak
    exact hwo wake (hl' ▸ hwak)
  refine ⟨?_,hw',hv ▸ hwa⟩
  rw [hv,ha,lists_same hw]
  cases hb with
  | @listed request effect object hca hm hre hdr hc =>
    cases VFS.transfer_transfers hm with
    | drained hn hd hr => exact absurd hre (hn object)
    | blocked object' hr' hno hu =>
      cases hre.symm.trans hr'
      have ho : ∀ pid, object ≠ .exitOf pid := by
        rintro pid rfl
        have hni := congrFun hu (.exitOf pid)
        simp [Drivers.listed] at hni
      rw [← lists_driver ho (a := a)] at hu
      have hnot : p.processID ∉ lists a s.vfs.drivers object := by
        intro hin
        rw [hl.asleep _ _ hin] at haw
        cases haw
      rw [hdr,lists_update ho hu]
      exact (hl.sleep haw object).append (by simp) hnot
  | unlisted hac ho =>
    obtain ⟨wakes,hno,hd⟩ := Acts.drains hac
    rw [h.settled,nil_append,hwa] at hno
    subst hno
    exact (wakens_drained hl hwo hd (.nil a)).1.sleep haw object

theorem Waiting.goes (hu : s.scheduler.ids.Nodup) (hg : Goes s call s')
    (hf : FlagsHold s call s') : Waiting s' := by
  cases hg with
  | answers a v hb ha haf =>
    cases ha with
    | acts hac => exact h.acts hb hac haf
    | returns hca hc hd =>
      cases hd with
      | acts hac => exact h.acts hb hac haf
      | transfers hm hr hac =>
        exact h.transfers hb hm hr hac haf
      | @connects procfd address server data value v hre hs hda hw hac =>
        subst hre
        exact h.connects hb (hf procfd address server data hca hs hda hw) hac haf
  | exits p status v hc hac haf => exact h.exits hu hc hac haf
  | blocks p object rax a v hc hbl hb hv hwa hblo =>
    exact h.blocks hu hc hbl hb hv hwa hblo
  | waits p q pid hc hq hv haf => exact h.waits hc hq hv haf
end
end

theorem waiting_initial (mounts : List MountPoint) : Waiting (initial mounts) := by
  have hl : ∀ o, lists (initial mounts).scheduler (initial mounts).vfs.drivers o = [] := by
    intro o
    rcases exit_or_driver o with ⟨pid,rfl⟩ | ho
    · change Scheduler.State.initialized.waiters pid = []
      by_cases hp : pid = 0
      · subst hp
        rfl
      · simp [waiters,Scheduler.State.process,Scheduler.State.initialized,Ne.symm hp]
    · rw [lists_driver ho]
      cases o <;> rfl
  refine ⟨⟨?_,?_⟩,?_,rfl⟩
  · intro o
    rw [hl]
    exact nodup_nil
  · intro o pid hp
    rw [hl] at hp
    cases hp
  · intro wake hw
    cases hw

/-- While a connection is asked for only from a server whose flag is down, or whose process sleeps
for a connection to it, every wake-up finds its process asleep on the object it belongs to. -/
theorem wake_ups_belong (h : Reachable Started step FlagsHold s) :
    ∀ wake ∈ s.scheduler.wakes, wake.state = .sleeping ∧ wake.asleepOn = some wake.cause := by
  have hw : Waiting s := by
    induction h with
    | start h =>
      obtain ⟨mounts,rfl⟩ := h
      exact waiting_initial mounts
    | next hr hs hf ih =>
      have hsound := sound_of_run hr
      exact ih.goes hsound.wellformed.unique (step_goes hsound ih.settled (live_of_run hr) hs) hf
  exact hw.woken

/-- A process sleeps in a read from a pipe, and is woken up by its child, which writes to it. -/
theorem wake_ups_belong_pipe : ∃ s, Reachable Started step FlagsHold s ∧
    ∃ wake ∈ s.scheduler.wakes, wake.cause = .pipeToRead 0 ∧ wake.state = .sleeping ∧
      wake.asleepOn = some (.pipeToRead 0) := by
  obtain ⟨s,hr,hf⟩ : ∃ s, Reachable Started step FlagsHold s ∧
      (s.scheduler.wakes.any fun wake => decide (wake.cause = .pipeToRead 0)) = true := by
    refine Reachable.exists_checked ⟨oneFile,rfl⟩ (fun _ call => !asksConnection call) ?_
      [.create ['/','a'] true,.timer 0,.file .pipe,.fork true,.file (.read 3 1 none),
        .file (.write 4 (fun _ => 7) 1 none)] (by decide +kernel)
    rintro s call s' ht procfd address server data rfl
    cases ht
  obtain ⟨wake,hw,hc⟩ := any_eq_true.mp hf
  have hc := of_decide_eq_true hc
  obtain ⟨hs,ha⟩ := wake_ups_belong hr wake hw
  exact ⟨s,hr,wake,hw,hc,hs,hc ▸ ha⟩

/-- A server sleeps for a connection. A client connects twice, and the second time it makes a
process running that runs already. -/
theorem wake_up_of_running_server : ∃ s, Reachable Started step anyStep s ∧
    ∃ wake ∈ s.scheduler.wakes, wake.cause = .connection 0 ∧ wake.state = .running := by
  obtain ⟨s,hre,hf⟩ : ∃ s, Reachable Started step anyStep s ∧
      (s.scheduler.wakes.any fun wake =>
        decide (wake.cause = .connection 0 ∧ wake.state = .running)) = true :=
    Reachable.exists_run ⟨oneFile,rfl⟩
      [.create ['/','a'] true,.timer 0,.file (.socket 0),.file (.bind 3 (.lensor16 (.replicate 16 1))),
        .fork true,.file (.accept 3),.file (.socket 0),.file (.connect 4 (.lensor16 (.replicate 16 1))),
        .file (.connect 4 (.lensor16 (.replicate 16 1)))] (by decide +kernel)
  obtain ⟨wake,hw,hr⟩ := any_eq_true.mp hf
  exact ⟨s,hre,wake,hw,of_decide_eq_true hr⟩
end State
end LensorOS.Kernel
