import Ossim.Mem.Bytes
import Ossim.Mem.GrowthSteps

/-!
A `WRITE` can be lost to an eviction on another CPU.

`pg_setval` looks up the frame of a page and then stores into that frame.
It holds `mmvm_lock`, but a growth on another CPU does not: if the growth
evicts the page in between, the byte goes into a frame that is not the
page's any more, and that may be another process's by then.

That is the only way. As long as no growth takes the page between the two
steps, the two calls may interleave as they like: a `READ` that follows a
successful `WRITE` gives the byte, and the `WRITE` changes no byte of the
process that grows.
-/

namespace Ossim.Mem

open Ossim.Lib

/-! ### What a growth does to another process -/

/-- The page that the next step of the call evicts, if any. -/
def Grower.takes (c : AllocCall) (s : Sys) (g : Grower) : Option (Pid × Nat) :=
  match g.pc with
  | .swapOut _ _ => victimPage s c.pid
  | _ => none

/-- All that process `p` can tell of a step is that a page was taken. -/
structure Quiet (p : Pid) (taken : Option (Pid × Nat)) (s t : Sys) : Prop where
  runningList : t.runningList = s.runningList
  symrgtbl : t.symrgtbl p = s.symrgtbl p
  stores : t.stores = s.stores
  ram : t.storage .mram = s.storage .mram
  pte : ∀ x < userPgns, taken ≠ some (p, x) → t.pte p x = s.pte p x

namespace Quiet

variable {p q : Pid} {taken : Option (Pid × Nat)} {s t u : Sys}

theorem of_meta (hmeta : t.meta = s.meta) (hram : t.storage = s.storage)
    (hpte : ∀ x < userPgns, t.pte p x = s.pte p x) : Quiet p taken s t where
  runningList := congrArg Sys.Meta.runningList hmeta
  symrgtbl := congrFun (congrArg Sys.Meta.symrgtbl hmeta) p
  stores := congrArg Sys.Meta.stores hmeta
  ram := congrFun hram .mram
  pte x hx _ := hpte x hx

theorem refl (s : Sys) : Quiet p taken s s := .of_meta rfl rfl fun _ _ => rfl

theorem setHost (s : Sys) (host : Nat → Bool) : Quiet p taken s { s with host := host } :=
  .of_meta rfl rfl fun _ _ => rfl

theorem setMmap (s : Sys) (q : Pid) (vma : VmArea) : Quiet p taken s (s.setMmap q vma) where
  runningList := rfl
  symrgtbl := rfl
  stores := rfl
  ram := rfl
  pte _ _ _ := rfl

theorem memphyGetFreefp {dev : Dev} {fpn : Nat} (hget : Mem.memphyGetFreefp s dev = some (fpn, t)) :
    Quiet p taken s t := by
  obtain ⟨rest, -, rfl⟩ := memphyGetFreefp_eq_some hget
  exact .of_meta rfl rfl fun _ _ => rfl

theorem memphyPutFreefp (s : Sys) (dev : Dev) (fpn : Nat) :
    Quiet p taken s (Mem.memphyPutFreefp s dev fpn) := by
  refine .of_meta (meta_memphyPutFreefp ..) (storage_memphyPutFreefp ..) fun x _ => ?_
  rw [Sys.pte, pgd_memphyPutFreefp, Sys.pte]

theorem setSymrg (h : Quiet p taken s t) (hp : p ≠ q) (rgid : Nat) (rg : VmRg) :
    Quiet p taken s (t.setSymrg q rgid rg) :=
  { h with
    symrgtbl := (Function.update_of_ne hp _ _).trans h.symrgtbl }

/-- The search, and what is done with a region that it finds. -/
theorem search (hp : p ≠ q) {size : Int} {found : Option VmRg}
    (hget : getFreeVmrgArea s q size = (found, t)) :
    Quiet p taken s t ∧ ∀ rgid rg, Quiet p taken s (t.setSymrg q rgid rg) := by
  have hquiet : Quiet p taken s t := by
    obtain ⟨l, hl⟩ := getFreeVmrgArea_eq s q size
    rw [hget] at hl
    rw [show t = _ from hl]
    exact setMmap s q _
  exact ⟨hquiet, fun rgid rg => hquiet.setSymrg hp rgid rg⟩

theorem pteSetEntry (hp : p ≠ q) (s : Sys) (g v : Nat) :
    Quiet p taken s (Mem.pteSetEntry s q g v).2 := by
  refine of_meta (meta_pteSetEntry ..) (storage_pteSetEntry ..) fun x _ => ?_
  rw [Sys.pte, pgd_pteSetEntry_of_ne hp, Sys.pte]

theorem walkPte (s : Sys) (q : Pid) (addr : Nat) : Quiet p taken s (Mem.walkPte s q addr).2 := by
  refine of_meta (meta_walkPte ..) ?_ fun x _ => lookup_walkPte s q addr p _
  rw [Mem.walkPte]
  split
  · rfl
  · dsimp only
    rw [Sys.setRoot]
    split <;> rfl

theorem swapOut {ok : Prop} {ram swp : List Nat} (h : Inv ok ram swp s) (hq : q ∈ s.runningList) :
    Quiet p (victimPage s q) s (swapOutVictimPage s q).2 where
  runningList := congrArg Sys.Meta.runningList (meta_swapOutVictimPage s q)
  symrgtbl := congrFun (congrArg Sys.Meta.symrgtbl (meta_swapOutVictimPage s q)) p
  stores := congrArg Sys.Meta.stores (meta_swapOutVictimPage s q)
  ram := mram_swapOutVictimPage s q
  pte _ hx hvic := h.pte_swapOut hq hx hvic

end Quiet

/-- A growth reads the RAM and never writes to it, and of another process it
changes at most the entry of the page that it evicts. -/
theorem GrowerInv.quiet {ok : Prop} {c : AllocCall} {s t : Sys} {g g' : Grower} {p : Pid}
    (h : GrowerInv ok c s g) (hp : p ≠ c.pid) (hstep : allocStep c s g = some (g', t)) :
    Quiet p (g.takes c s) s t := by
  obtain ⟨pc, oldEnd⟩ := g
  cases pc with
  | search =>
      simp only [allocStep] at hstep
      split at hstep
      · cases hstep
        exact .refl s
      · cases hget : getFreeVmrgArea s c.pid (toInt c.size) with
        | mk found u =>
            obtain ⟨hnone, hsome⟩ := Quiet.search hp hget
            rw [hget] at hstep
            cases found with
            | none =>
                cases hstep
                exact hnone
            | some rg =>
                cases hstep
                exact hsome c.rgid rg
  | syscall =>
      rw [allocStep_syscall oldEnd h.live] at hstep
      split at hstep
      · cases hstep
        exact .setHost s _
      · cases hstep
        exact { Quiet.setHost s (draw s.host).2 with }
  | getFreefp left frames =>
      cases left with
      | zero =>
          cases hstep
          exact .refl s
      | succ left =>
          simp only [allocStep] at hstep
          cases hget : memphyGetFreefp s .mram with
          | none =>
              rw [hget] at hstep
              cases hstep
              exact .refl s
          | some r =>
              rw [hget] at hstep
              cases hstep
              exact .memphyGetFreefp hget
  | swapOut left frames =>
      have hout : Quiet p (victimPage s c.pid) s _ := .swapOut h.inv h.live
      simp only [allocStep] at hstep
      generalize swapOutVictimPage s c.pid = r at hout hstep
      obtain ⟨_ | fpn, u⟩ := r
      all_goals
        cases hstep
        exact hout
  | newNode left frames fpn =>
      simp only [allocStep] at hstep
      generalize draw s.host = r at hstep
      obtain ⟨_ | _, host⟩ := r
      all_goals
        cases hstep
        exact .setHost s host
  | release frames back =>
      cases frames with
      | nil => cases back <;> cases hstep <;> exact .refl s
      | cons fpn frames =>
          cases back
          all_goals
            cases hstep
            exact .memphyPutFreefp s .mram fpn
  | vmap frames =>
      simp only [allocStep] at hstep
      split at hstep <;> cases hstep <;> exact .refl s
  | walk left pgit frames =>
      cases left with
      | zero =>
          cases hstep
          exact .refl s
      | succ left =>
          have hwalk : Quiet p none s _ :=
            .walkPte s c.pid (pgnAddr (oldEnd / 2 ^ 12 + pgit))
          simp only [allocStep] at hstep
          generalize walkPte s c.pid (pgnAddr (oldEnd / 2 ^ 12 + pgit)) = r at hwalk hstep
          obtain ⟨_ | _, u⟩ := r
          all_goals
            cases hstep
            exact hwalk
  | setFpn left pgit frames =>
      cases left with
      | zero =>
          cases hstep
          exact .refl s
      | succ left =>
          cases frames with
          | nil =>
              cases hstep
              exact .refl s
          | cons fpn next =>
              have hset : Quiet p none s _ :=
                .pteSetEntry hp s (oldEnd / 2 ^ 12 + pgit) (presentPte fpn)
              rw [← pteSetFpn] at hset
              simp only [allocStep] at hstep
              generalize pteSetFpn s c.pid (oldEnd / 2 ^ 12 + pgit) fpn = r at hset hstep
              obtain ⟨_ | _, u⟩ := r
              all_goals
                cases hstep
                exact hset
  | enlist left pgit fpn next =>
      simp only [allocStep, enlistPgnNode] at hstep
      generalize draw s.host = r at hstep
      obtain ⟨_ | _, host⟩ := r
      all_goals
        cases hstep
        exact { Quiet.setHost s host with }
  | clear pgit fpn next =>
      cases hstep
      exact .pteSetEntry hp s _ 0
  | enlistRg rg =>
      cases hstep
      exact .setMmap s c.pid _
  | again sret =>
      simp only [allocStep] at hstep
      split at hstep
      · cases hstep
        exact .refl s
      · cases hget : getFreeVmrgArea s c.pid (toInt c.size) with
        | mk found u =>
            obtain ⟨hnone, hsome⟩ := Quiet.search hp hget
            rw [hget] at hstep
            cases found with
            | none =>
                cases hstep
                exact hnone
            | some rg =>
                cases hstep
                exact hsome c.rgid rg
  | done ret => cases hstep

/-! ### The other process meanwhile -/

theorem GrowerInv.undisturbed {ok : Prop} {c : AllocCall} {s t : Sys} {g : Grower}
    (h : GrowerInv ok c s g) (hinv : Inv ok g.pc.held [] t) (hrun : t.runningList = s.runningList)
    (hst : Undisturbed c.pid s t) (hkeep : KeepsListed s t) : GrowerInv ok c t g where
  inv := hinv
  live := by
    rw [hrun]
    exact h.live
  before hb := by
    obtain ⟨hlow, hlisted⟩ := h.before hb
    rw [hst.mmap]
    exact ⟨hlow, fun x hx => hkeep.entries c.pid _ (hlisted x (hst.fifo x hx))⟩
  growing hmapping := (h.growing hmapping).undisturbed hst

theorem WriteCall.address_lt {w : WriteCall} {s : Sys} {addr : Nat}
    (h : w.address s = some addr) : addr < 2 ^ 56 := by
  simp only [WriteCall.address] at h
  split at h
  · cases h
  · exact userAccess_lt h

theorem WriteCall.address_congr {w : WriteCall} {s t : Sys} (h : t.meta = s.meta) :
    w.address t = w.address s := by
  rw [address, address, show t.symrgtbl = s.symrgtbl from congrArg Sys.Meta.symrgtbl h]

/-- The last store to the address of the call was its own byte. -/
def Stored (w : WriteCall) (s : Sys) : Prop :=
  ∀ addr, w.address s = some addr →
    lastStore s.stores w.pid addr = some ⟨w.pid, addr, w.value, false⟩

/-- The invariant of the CPU that writes. -/
def Writer.Ok (w : WriteCall) (s : Sys) : Writer → Prop
  | .write .start => True
  | .write (.getpage addr) => w.address s = some addr
  | .write (.access addr fpn) =>
    w.address s = some addr ∧ s.pte w.pid (addr / 2 ^ 12) = presentPte fpn ∧ fpn < 2 ^ 40
  | .read wrote .start => wrote = true → Stored w s
  | .read wrote (.getpage addr) => w.address s = some addr ∧ (wrote = true → Stored w s)
  | .read wrote (.access addr fpn) =>
    wrote = true → s.storage .mram (fpn * pageSz + addr % 2 ^ 12) = w.value
  | .done wrote data => wrote = true → ∀ b, data = some b → b = w.value

/-- The page that a `WRITE` has looked up and not yet stored to. -/
def Writer.page : Writer → Option Nat
  | .write (.access addr _) => some (addr / 2 ^ 12)
  | _ => none

/-- What the other CPU does is no matter, unless it takes the page. -/
theorem Writer.Ok.quiet {w : WriteCall} {s t : Sys} {x : Writer} {taken : Option (Pid × Nat)}
    (h : x.Ok w s) (hst : Quiet w.pid taken s t)
    (hpage : ∀ g ∈ x.page, taken ≠ some (w.pid, g)) : x.Ok w t := by
  have haddr : w.address t = w.address s := by
    rw [WriteCall.address, WriteCall.address, hst.symrgtbl]
  have hstored (hs : Stored w s) : Stored w t := by
    intro addr ha
    rw [haddr] at ha
    rw [hst.stores]
    exact hs addr ha
  cases x with
  | write pc =>
      cases pc with
      | start => trivial
      | getpage addr => exact haddr.trans h
      | access addr fpn =>
          obtain ⟨ha, hpte, hf⟩ := h
          have hlt : addr / 2 ^ 12 < userPgns := by
            have := WriteCall.address_lt ha
            simp only [userPgns]
            omega
          refine ⟨haddr.trans ha, ?_, hf⟩
          rw [hst.pte _ hlt (hpage _ rfl)]
          exact hpte
  | read wrote pc =>
      cases pc with
      | start => exact fun hw => hstored (h hw)
      | getpage addr => exact ⟨haddr.trans h.1, fun hw => hstored (h.2 hw)⟩
      | access addr fpn =>
          intro hw
          rw [hst.ram]
          exact h hw
  | done wrote data => exact h

/-! ### Both together -/

structure RaceInv (ok : Prop) (w : WriteCall) (c : AllocCall) (r : Race) : Prop where
  grower : GrowerInv ok c r.sys r.grower
  live : w.pid ∈ r.sys.runningList
  writer : r.writer.Ok w r.sys

/-- No byte of process `q` changes. -/
def SameBytes (q : Pid) (s t : Sys) : Prop :=
  ∀ addr, t.byteAt (.user q addr) = s.byteAt (.user q addr)

namespace RaceInv

variable {ok : Prop} {w : WriteCall} {c : AllocCall} {s t : Sys} {x y : Writer} {g : Grower}

/-- The call goes on, or is over, without a change of the state. -/
theorem goes (h : RaceInv ok w c ⟨s, x, g⟩) (hok : y.Ok w s) :
    RaceInv ok w c ⟨s, y, g⟩ ∧ SameBytes c.pid s s :=
  ⟨⟨h.grower, h.live, hok⟩, fun _ => rfl⟩

/-- The page of the access is brought in. -/
theorem getpage (h : RaceInv ok w c ⟨s, x, g⟩) (hne : w.pid ≠ c.pid) {addr : Nat}
    (haddr : w.address s = some addr) {r : Option Nat}
    (hget : pgGetpage s w.pid (addr / 2 ^ 12) = (r, t))
    (hok : t.meta = s.meta → (∀ f, r = some f →
      t.pte w.pid (addr / 2 ^ 12) = presentPte f ∧ f < 2 ^ 40) → Inv ok g.pc.held [] t →
        y.Ok w t) :
    RaceInv ok w c ⟨t, y, g⟩ ∧ SameBytes c.pid s t := by
  have hlt : addr / 2 ^ 12 < userPgns := by
    have := WriteCall.address_lt haddr
    simp only [userPgns]
    omega
  have hpage := h.grower.inv.pgGetpage h.live hlt
  have hmeta := meta_pgGetpage s w.pid (addr / 2 ^ 12)
  have hbytes := h.grower.inv.byteAt_pgGetpage h.live hlt
  have hst : Undisturbed c.pid s _ :=
    .pgGetpage h.grower.inv h.live hne.symm (addr / 2 ^ 12)
  have hkeep := KeepsListed.pgGetpage (s := s) (p := w.pid) hlt
  dsimp only at hpage hbytes hst
  rw [hget] at hpage hmeta hbytes hst hkeep
  have hrun : t.runningList = s.runningList := congrArg Sys.Meta.runningList hmeta
  refine ⟨⟨h.grower.undisturbed hpage.inv hrun hst hkeep, ?_, hok hmeta hpage.mapped hpage.inv⟩,
    fun a => congrFun hbytes _⟩
  change w.pid ∈ t.runningList
  rw [hrun]
  exact h.live

/-- The byte is stored, in the frame of its page. -/
theorem store (h : RaceInv ok w c ⟨s, x, g⟩) (hne : w.pid ≠ c.pid) {addr fpn : Nat}
    (haddr : w.address s = some addr) (hpte : s.pte w.pid (addr / 2 ^ 12) = presentPte fpn)
    (hf : fpn < 2 ^ 40) {u : Sys}
    (hwrite : memphyWrite s .mram (fpn * pageSz + addr % 2 ^ 12) w.value = some u) :
    RaceInv ok w c ⟨{ u with stores := ⟨w.pid, addr, w.value, false⟩ :: u.stores },
      .read true .start, g⟩ ∧
    SameBytes c.pid s { u with stores := ⟨w.pid, addr, w.value, false⟩ :: u.stores } := by
  obtain rfl := memphyWrite_eq_some hwrite
  have hlow := WriteCall.address_lt haddr
  have hlt : addr / 2 ^ 12 < userPgns := by simp only [userPgns]; omega
  have hoff : addr % 2 ^ 12 < pageSz := Nat.mod_lt _ (by decide)
  have hsplit : addr / 2 ^ 12 * pageSz + addr % 2 ^ 12 = addr := Nat.div_add_mod' _ _
  have hinv := h.grower.inv.storeByte (v := w.value) (c := false) h.live hlt hf hpte hoff
  rw [hsplit] at hinv
  refine ⟨⟨h.grower.undisturbed hinv rfl (.store s hne.symm _ addr w.value) (.of_eq rfl rfl),
    h.live, fun _ a ha => ?_⟩, fun a => ?_⟩
  · have heq : a = addr := Option.some.inj (ha.symm.trans haddr)
    rw [heq]
    simp [lastStore]
  · rw [byteAt_setStores, h.grower.inv.byteAt_poke w.value h.live hlow hf hpte]
    refine Function.update_of_ne (fun heq => ?_) _ _
    exact hne (Place.user.inj heq).1.symm

/-- A step of the `WRITE` or the `READ`. -/
theorem writerStep (h : RaceInv ok w c ⟨s, x, g⟩) (hne : w.pid ≠ c.pid)
    (hstep : Mem.writerStep w s x = some (y, t)) :
    RaceInv ok w c ⟨t, y, g⟩ ∧ SameBytes c.pid s t := by
  have hx := h.writer
  cases x with
  | write pc =>
      cases pc with
      | start =>
          simp only [Mem.writerStep] at hstep
          cases haddr : w.address s with
          | none =>
              rw [haddr] at hstep
              cases hstep
              exact h.goes fun hx => by cases hx
          | some addr =>
              rw [haddr] at hstep
              cases hstep
              exact h.goes haddr
      | getpage addr =>
          have haddr : w.address s = some addr := hx
          simp only [Mem.writerStep] at hstep
          cases hget : pgGetpage s w.pid (addr / 2 ^ 12) with
          | mk r u =>
              rw [hget] at hstep
              cases r with
              | none =>
                  cases hstep
                  exact h.getpage hne haddr hget fun _ _ _ hx => by cases hx
              | some fpn =>
                  cases hstep
                  refine h.getpage hne haddr hget fun hmeta hmapped _ => ⟨?_, hmapped fpn rfl⟩
                  rw [WriteCall.address_congr hmeta]
                  exact haddr
      | access addr fpn =>
          obtain ⟨haddr, hpte, hf⟩ := hx
          simp only [Mem.writerStep] at hstep
          cases hwrite : memphyWrite s .mram (fpn * pageSz + addr % 2 ^ 12) w.value with
          | none =>
              rw [hwrite] at hstep
              cases hstep
              exact h.goes fun hx => by cases hx
          | some u =>
              rw [hwrite] at hstep
              cases hstep
              exact h.store hne haddr hpte hf hwrite
  | read wrote pc =>
      cases pc with
      | start =>
          simp only [Mem.writerStep] at hstep
          cases haddr : w.address s with
          | none =>
              rw [haddr] at hstep
              cases hstep
              exact h.goes fun _ _ hx => by cases hx
          | some addr =>
              rw [haddr] at hstep
              cases hstep
              exact h.goes ⟨haddr, hx⟩
      | getpage addr =>
          obtain ⟨haddr, hstored⟩ := hx
          simp only [Mem.writerStep] at hstep
          cases hget : pgGetpage s w.pid (addr / 2 ^ 12) with
          | mk r u =>
              rw [hget] at hstep
              cases r with
              | none =>
                  cases hstep
                  exact h.getpage hne haddr hget fun _ _ _ _ _ hx => by cases hx
              | some fpn =>
                  cases hstep
                  refine h.getpage hne haddr hget fun hmeta hmapped hinv hw => ?_
                  obtain ⟨hpte, hf⟩ := hmapped fpn rfl
                  have hbyte := hstored hw addr haddr
                  rw [← show t.stores = s.stores from congrArg Sys.Meta.stores hmeta] at hbyte
                  have hlive : w.pid ∈ t.runningList := by
                    rw [show t.runningList = s.runningList from
                      congrArg Sys.Meta.runningList hmeta]
                    exact h.live
                  exact hinv.ram_of_lastStore hlive (WriteCall.address_lt haddr) hf hpte hbyte
      | access addr fpn =>
          cases hstep
          refine h.goes fun hw b hb => ?_
          rw [memphyRead_eq_some hb]
          exact hx hw
  | done wrote data => cases hstep

/-- A step of the `ALLOC` that does not take the page of the `WRITE`. -/
theorem allocStep {g' : Grower} (h : RaceInv ok w c ⟨s, x, g⟩) (hne : w.pid ≠ c.pid)
    (hstep : Mem.allocStep c s g = some (g', t))
    (hpage : ∀ p ∈ x.page, g.takes c s ≠ some (w.pid, p)) : RaceInv ok w c ⟨t, x, g'⟩ := by
  have hquiet := h.grower.quiet hne hstep
  refine ⟨h.grower.step hstep, ?_, h.writer.quiet hquiet hpage⟩
  change w.pid ∈ t.runningList
  rw [hquiet.runningList]
  exact h.live

end RaceInv

/-! ### Interleavings -/

/-- The growth is about to evict the page that the `WRITE` has looked up. -/
def TakesPage (w : WriteCall) (c : AllocCall) (r : Race) (turn : Turn) : Prop :=
  turn = .grower ∧ ∃ g ∈ r.writer.page, r.grower.takes c r.sys = some (w.pid, g)

instance (w : WriteCall) (c : AllocCall) (r : Race) (turn : Turn) :
    Decidable (TakesPage w c r turn) :=
  inferInstanceAs (Decidable (_ ∧ _))

/-- One step of an interleaving in which that does not happen. -/
def SafeStep (w : WriteCall) (c : AllocCall) (r : Race) (turn : Turn) (r' : Race) : Prop :=
  raceStep w c r turn = some r' ∧ ¬TakesPage w c r turn

/-- In every interleaving that starts in state `s`, a `READ` that returns 0
after a `WRITE` that returned 0 gives its byte, and no step of the `WRITE`
changes a byte of the process that grows. -/
def WriteKept (w : WriteCall) (c : AllocCall) (R : Race → Turn → Race → Prop) (s : Sys) : Prop :=
  ∀ turns r, Run R (raceStart s) turns r →
    (∀ data, r.writer = .done true (some data) → data = w.value) ∧
    ∀ pc r', r.writer = .write pc → raceStep w c r .writer = some r' →
      SameBytes c.pid r.sys r'.sys

theorem RaceInv.safeStep {ok : Prop} {w : WriteCall} {c : AllocCall} {r r' : Race} {turn : Turn}
    (h : RaceInv ok w c r) (hne : w.pid ≠ c.pid) (hstep : SafeStep w c r turn r') :
    RaceInv ok w c r' := by
  obtain ⟨hstep, hsafe⟩ := hstep
  cases turn with
  | writer =>
      obtain ⟨⟨y, t⟩, hy, rfl⟩ := Option.map_eq_some_iff.mp hstep
      exact (RaceInv.writerStep h hne hy).1
  | grower =>
      rw [raceStep] at hstep
      split at hstep
      · cases hstep
      · obtain ⟨⟨g, t⟩, hg, rfl⟩ := Option.map_eq_some_iff.mp hstep
        exact RaceInv.allocStep h hne hg fun p hp htakes => hsafe ⟨rfl, p, hp, htakes⟩

theorem RaceInv.start {ok : Prop} {w : WriteCall} {c : AllocCall} {s : Sys} (h : Inv ok [] [] s)
    (hlow : s.LowBreaks) (hlisted : FifoMapped s) (hw : w.pid ∈ s.runningList)
    (hc : c.pid ∈ s.runningList) : RaceInv ok w c (raceStart s) where
  grower :=
  { inv := h
    live := hc
    before := fun _ => ⟨hlow c.pid hc, hlisted c.pid hc⟩
    growing := fun hmap => by cases hmap }
  live := hw
  writer := trivial

/-- No `WRITE` is lost to an `ALLOC` on another CPU as long as the growth
never evicts the page between the look-up of its frame and the store. -/
theorem write_kept {ramSz swpSz : Nat} {host : Nat → Bool} {ops : List Op} {s : Sys}
    (hrun : Run LowStep (boot ramSz swpSz host) ops s) {w : WriteCall} {c : AllocCall}
    (hw : w.pid ∈ s.runningList) (hc : c.pid ∈ s.runningList) (hne : w.pid ≠ c.pid) :
    WriteKept w c (SafeStep w c) s := by
  intro turns r hrace
  obtain ⟨hinv, hlow⟩ := inv_of_run hrun
  have h : RaceInv (host = fun _ => true) w c r :=
    hrace.invariant (I := RaceInv (host = fun _ => true) w c)
      (fun _ _ _ hr hstep => hr.safeStep hne hstep)
      (.start hinv hlow (.of_run hrun) hw hc)
  constructor
  · intro data hdone
    have hok := h.writer
    rw [hdone] at hok
    exact hok rfl data rfl
  · intro pc r' hpc hstep
    obtain ⟨⟨y, t⟩, hy, rfl⟩ := Option.map_eq_some_iff.mp hstep
    exact (RaceInv.writerStep h hne hy).2

/-! ### A lost `WRITE` -/

/-- The page is read from frame `o` of the swap into frame `f`. -/
def pagedIn (s : Sys) (p : Pid) (g f o : Nat) : Sys :=
  let s := s.setStorage .mram (copyPage (s.storage .mswp) o (s.storage .mram) f)
  let s := memphyPutFreefp s .mswp o
  let s := (pteSetFpn s p g f).2
  (enlistPgnNode s p g).2

theorem pgGetpage_found {s t : Sys} {p : Pid} {g f o : Nat} (ho : o < 2 ^ 40)
    (hpte : pteGetEntry s p g = swappedPte activeMswpId o)
    (hout : swapOutVictimPage s p = (some f, t)) (husable : ∀ d, t.Usable d)
    (hf : f < numfp (t.maxsz .mram)) (hin : o < numfp (t.maxsz .mswp)) :
    pgGetpage s p g = (some (pteFpn (pteGetEntry (pagedIn t p g f o) p g)), pagedIn t p g f o) := by
  have hcp := swapCpPage_frames (s := t) (show Dev.mswp ≠ Dev.mram by decide) (husable .mswp)
    (husable .mram) hin hf
  rw [pgGetpage, hpte, pteSwp_swappedPte ho, hout]
  dsimp only
  rw [hcp]
  simp only [pagePresent_swappedPte, pageSwapped_swappedPte]
  rfl

theorem raceStep_swapOut {w : WriteCall} {c : AllocCall} {r : Race} {left f : Nat}
    {frames : List Nat} {t : Sys} (hpc : r.grower.pc = .swapOut left frames)
    (hout : swapOutVictimPage r.sys c.pid = (some f, t)) :
    raceStep w c r .grower = some ⟨t, r.writer, r.grower.goto (.newNode left frames f)⟩ := by
  simp only [raceStep, Grower.needsMmvm, allocStep, hpc, hout]
  rfl

theorem raceStep_readGetpage {w : WriteCall} {c : AllocCall} {r : Race} {wrote : Bool}
    {addr f : Nat} {t : Sys} (hx : r.writer = .read wrote (.getpage addr))
    (hget : pgGetpage r.sys w.pid (addr / 2 ^ 12) = (some f, t)) :
    raceStep w c r .writer = some ⟨t, .read wrote (.access addr f), r.grower⟩ := by
  simp only [raceStep, writerStep, hx, hget, Option.map_some]

theorem usable_of {s : Sys} (hflag : s.rdmflg .mram = true ∧ s.rdmflg .mswp = true)
    (hsize : s.maxsz .mram < 2 ^ 31 ∧ s.maxsz .mswp < 2 ^ 31) (d : Dev) : s.Usable d := by
  cases d with
  | mram => exact ⟨hflag.1, hsize.1⟩
  | mswp => exact ⟨hflag.2, hsize.2⟩

/-- Process 1 has the only frame of the RAM, process 2 has nothing. -/
def onePageOfTwo : List Op :=
  [.load, .load, .inst 1 { opcode := .alloc, arg0 := 4096, arg1 := 0 } ⟨0, 0⟩]

theorem onePageOfTwo_isSome :
    (lowExec (boot 4096 8192 fun _ => true) onePageOfTwo).isSome = true := by decide +kernel

def ramTaken : Sys := (lowExec (boot 4096 8192 fun _ => true) onePageOfTwo).get onePageOfTwo_isSome

theorem run_ramTaken : Run LowStep (boot 4096 8192 fun _ => true) onePageOfTwo ramTaken :=
  run_of_lowExec (Option.some_get onePageOfTwo_isSome).symm

/-- Process 1 writes 7 to the first byte of its page. -/
def writeSeven : WriteCall := ⟨1, 0, 0, 7⟩

/-- Process 2 asks for a page. -/
def allocPage : AllocCall := ⟨2, 0, 4096, ⟨0, 0⟩⟩

/-- The growth has found no free frame, and the `WRITE` knows its frame. -/
def untilLookedUp : List Turn := [.grower, .grower, .writer, .writer, .grower]

theorem untilLookedUp_isSome :
    (exec (raceStep writeSeven allocPage) (raceStart ramTaken) untilLookedUp).isSome = true := by
  decide +kernel

def lookedUp : Race :=
  (exec (raceStep writeSeven allocPage) (raceStart ramTaken) untilLookedUp).get untilLookedUp_isSome

/-- The growth takes the page. -/
def pageTaken : Race :=
  ⟨evicted (findGlobalVictim (lookedUp.sys.setSwapFree [1]) 2).2 1 0 0 0, lookedUp.writer,
    lookedUp.grower.goto (.newNode 0 [] 0)⟩

/-- The growth maps the frame for process 2. -/
def untilMapped : List Turn := List.replicate 7 .grower

theorem untilMapped_isSome :
    (exec (raceStep writeSeven allocPage) pageTaken untilMapped).isSome = true := by decide +kernel

def mappedElsewhere : Race :=
  (exec (raceStep writeSeven allocPage) pageTaken untilMapped).get untilMapped_isSome

/-- The `WRITE` stores its byte and returns, and the `READ` starts. -/
theorem written_isSome :
    (exec (raceStep writeSeven allocPage) mappedElsewhere [.writer, .writer]).isSome = true := by
  decide +kernel

def written : Race :=
  (exec (raceStep writeSeven allocPage) mappedElsewhere [.writer, .writer]).get written_isSome

/-- The page of process 2 goes out, that of process 1 comes back. -/
def readBack : Race :=
  ⟨pagedIn (evicted (findGlobalVictim (written.sys.setSwapFree []) 1).2 2 0 0 1) 1 0 0 0,
    .read true (.access 0 0), written.grower⟩

theorem lookedUp_taken : raceStep writeSeven allocPage lookedUp .grower = some pageTaken := by
  have hpc : lookedUp.grower.pc = .swapOut 0 [] := by decide +kernel
  have hfree : lookedUp.sys.freeFpList .mswp = [0, 1] := by decide +kernel
  have hvic : findGlobalVictim (lookedUp.sys.setSwapFree [1]) 2 =
      (some (1, 0, presentPte 0), (findGlobalVictim (lookedUp.sys.setSwapFree [1]) 2).2) :=
    pair_of_fst (by decide +kernel)
  have husable : ∀ d, lookedUp.sys.Usable d :=
    usable_of (by decide +kernel) (by decide +kernel)
  have hram : pteFpn (presentPte 0) < numfp (lookedUp.sys.maxsz .mram) := by decide +kernel
  have hswp : 0 < numfp (lookedUp.sys.maxsz .mswp) := by decide +kernel
  have hpte : lookedUp.sys.pte 1 0 ≠ 0 := by decide +kernel
  have hout := swapOutVictimPage_found husable hfree hvic hram hswp (by decide) hpte
  rw [pteFpn_presentPte (by decide)] at hout
  exact raceStep_swapOut hpc hout

theorem written_readBack : raceStep writeSeven allocPage written .writer = some readBack := by
  have hx : written.writer = .read true (.getpage 0) := by decide +kernel
  have hfree : written.sys.freeFpList .mswp = [1] := by decide +kernel
  have hvic : findGlobalVictim (written.sys.setSwapFree []) 1 =
      (some (2, 0, presentPte 0), (findGlobalVictim (written.sys.setSwapFree []) 1).2) :=
    pair_of_fst (by decide +kernel)
  have husable : ∀ d, written.sys.Usable d :=
    usable_of (by decide +kernel) (by decide +kernel)
  have hram : pteFpn (presentPte 0) < numfp (written.sys.maxsz .mram) := by decide +kernel
  have hswp : 1 < numfp (written.sys.maxsz .mswp) := by decide +kernel
  have hpte : written.sys.pte 2 0 ≠ 0 := by decide +kernel
  have hout := swapOutVictimPage_found husable hfree hvic hram hswp (by decide) hpte
  rw [pteFpn_presentPte (by decide)] at hout
  have hown : pteGetEntry written.sys 1 0 = swappedPte activeMswpId 0 := by decide +kernel
  have husable' :
      ∀ d, (evicted (findGlobalVictim (written.sys.setSwapFree []) 1).2 2 0 0 1).Usable d :=
    usable_of (by decide +kernel) (by decide +kernel)
  have hram' : 0 < numfp
      ((evicted (findGlobalVictim (written.sys.setSwapFree []) 1).2 2 0 0 1).maxsz .mram) := by
    decide +kernel
  have hswp' : 0 < numfp
      ((evicted (findGlobalVictim (written.sys.setSwapFree []) 1).2 2 0 0 1).maxsz .mswp) := by
    decide +kernel
  have hget := pgGetpage_found (by decide) hown hout husable' hram' hswp'
  have hfpn : pteFpn (pteGetEntry (pagedIn (evicted (findGlobalVictim
      (written.sys.setSwapFree []) 1).2 2 0 0 1) 1 0 0 0) 1 0) = 0 := by decide +kernel
  rw [hfpn] at hget
  exact raceStep_readGetpage hx hget

theorem run_mappedElsewhere : Run (Step (raceStep writeSeven allocPage)) (raceStart ramTaken)
    (untilLookedUp ++ [.grower] ++ untilMapped) mappedElsewhere := by
  have hlooked := run_of_exec (Option.some_get untilLookedUp_isSome).symm
  have hmapped := run_of_exec (Option.some_get untilMapped_isSome).symm
  exact (hlooked.snoc lookedUp_taken).append hmapped

theorem store_isSome :
    (raceStep writeSeven allocPage mappedElsewhere .writer).isSome = true := by
  decide +kernel

theorem readBack_done : (raceStep writeSeven allocPage readBack .writer).map Race.writer =
    some (.done true (some 0)) := by
  decide +kernel

/-- With a RAM of one frame, the `WRITE` of process 1 stores into the page of
process 2, and the `READ` after it gives the old byte. -/
theorem write_lost :
    Run LowStep (boot 4096 8192 fun _ => true) onePageOfTwo ramTaken ∧
      1 ∈ ramTaken.runningList ∧ 2 ∈ ramTaken.runningList ∧
      (∃ turns r r', Run (Step (raceStep writeSeven allocPage)) (raceStart ramTaken) turns r ∧
        r.writer = .write (.access 0 0) ∧ raceStep writeSeven allocPage r .writer = some r' ∧
        r.sys.byteAt (.user 2 0) = some 0 ∧ r'.sys.byteAt (.user 2 0) = some 7) ∧
      (∃ turns r, Run (Step (raceStep writeSeven allocPage)) (raceStart ramTaken) turns r ∧
        r.writer = .done true (some 0)) ∧
      ¬WriteKept writeSeven allocPage (Step (raceStep writeSeven allocPage)) ramTaken := by
  have hback : Run (Step (raceStep writeSeven allocPage)) (raceStart ramTaken) _ readBack :=
    (run_mappedElsewhere.append (run_of_exec (Option.some_get written_isSome).symm)).snoc
      written_readBack
  obtain ⟨r, hr, hdone⟩ := Option.map_eq_some_iff.mp readBack_done
  have hrun := hback.snoc hr
  refine ⟨run_ramTaken, by decide +kernel, by decide +kernel, ?_, ⟨_, r, hrun, hdone⟩, ?_⟩
  · exact ⟨_, mappedElsewhere, _, run_mappedElsewhere, by decide +kernel,
      (Option.some_get store_isSome).symm, by decide +kernel, by decide +kernel⟩
  · intro hkept
    exact absurd ((hkept _ r hrun).1 0 hdone) (by decide)

/-! ### A `WRITE` beside an `ALLOC` that finds a free frame -/

theorem onePageOfTwo_isSome_twoFrames :
    (lowExec (boot 8192 4096 fun _ => true) onePageOfTwo).isSome = true := by decide +kernel

/-- The same two processes, with a second frame in the RAM. -/
def frameLeft : Sys :=
  (lowExec (boot 8192 4096 fun _ => true) onePageOfTwo).get onePageOfTwo_isSome_twoFrames

/-- The growth gets and maps its frame while the `WRITE` is under way. -/
def besideGrowth : List Turn :=
  untilLookedUp ++ List.replicate 7 .grower ++ List.replicate 4 .writer ++
    List.replicate 3 .grower

theorem besideGrowth_isSome :
    (exec (guarded (raceStep writeSeven allocPage)
      fun r turn _ => decide (¬TakesPage writeSeven allocPage r turn)) (raceStart frameLeft)
      besideGrowth).isSome = true := by
  decide +kernel

def afterGrowth : Race :=
  (exec (guarded (raceStep writeSeven allocPage)
      fun r turn _ => decide (¬TakesPage writeSeven allocPage r turn)) (raceStart frameLeft)
      besideGrowth).get besideGrowth_isSome

theorem run_afterGrowth :
    Run (SafeStep writeSeven allocPage) (raceStart frameLeft) besideGrowth afterGrowth :=
  run_of_exec_guarded (fun _ _ _ hstep hok => ⟨hstep, of_decide_eq_true hok⟩)
    (Option.some_get besideGrowth_isSome).symm

theorem write_kept_frameLeft :
    Run (SafeStep writeSeven allocPage) (raceStart frameLeft) besideGrowth afterGrowth ∧
      afterGrowth.writer = .done true (some 7) ∧ afterGrowth.grower.pc = .done 0 ∧
      WriteKept writeSeven allocPage (SafeStep writeSeven allocPage) frameLeft := by
  refine ⟨run_afterGrowth, by decide +kernel, by decide +kernel, ?_⟩
  exact write_kept (run_of_lowExec (Option.some_get onePageOfTwo_isSome_twoFrames).symm)
    (by decide +kernel) (by decide +kernel) (by decide)

end Ossim.Mem
