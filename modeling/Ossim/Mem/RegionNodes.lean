import Ossim.Lib.Chain
import Ossim.Mem.Coalescing

/-!
The free list as linked nodes.

`enlist_vm_rg_node` and `get_free_vmrg_area` work on nodes in place: the
first links a node in and may free it, or the one behind it, right after; the
second takes over the contents of the next node and frees that one. Here the
two functions run on memory. A null or dangling pointer that is followed, and
a loop that does not end within its fuel, give `none`. The results say that
this does not happen on a list, that the values of the nodes are what the
functions on lists compute, and that every node that leaves the list is freed
and no other.
-/

namespace Ossim.Mem

open Ossim.Lib

/-! ### `enlist_vm_rg_node` -/

/-- The loop: the last node that starts before the new one, and the one after
it. -/
def findPlace (h : Heap VmRg) (rgStart : Nat) :
    (fuel : Nat) → (prev curr : Option Nat) → Option (Option Nat × Option Nat)
  | 0, _, _ => none
  | _ + 1, prev, none => some (prev, none)
  | fuel + 1, prev, some a =>
    match h a with
    | none => none
    | some node =>
      if node.val.rgStart < rgStart then findPlace h rgStart fuel (some a) node.next
      else some (prev, some a)

/-- Link the new node behind `prev`, or at the head of the list. -/
def linkNode (h : Heap VmRg) (rglist : Option Nat) (rgnode : Nat) :
    (prev : Option Nat) → Option (Heap VmRg × Option Nat)
  | none => some (h, some rgnode)
  | some a => do
    let node ← h a
    some (Function.update h a (some ⟨node.val, some rgnode⟩), rglist)

/-- Merge the new node with the one behind it, and free that one. -/
def mergeNextNode (h : Heap VmRg) (rgnode : Nat) : (curr : Option Nat) → Option (Heap VmRg)
  | none => some h
  | some a => do
    let rg ← h rgnode
    let node ← h a
    if rg.val.rgEnd = node.val.rgStart then
      let h := Function.update h rgnode (some ⟨⟨rg.val.rgStart, node.val.rgEnd⟩, node.next⟩)
      some (Function.update h a none)
    else some h

/-- Merge the new node with the one before it, and free the new one. -/
def mergePrevNode (h : Heap VmRg) (rgnode : Nat) : (prev : Option Nat) → Option (Heap VmRg)
  | none => some h
  | some a => do
    let rg ← h rgnode
    let node ← h a
    if node.val.rgEnd = rg.val.rgStart then
      let h := Function.update h a (some ⟨⟨node.val.rgStart, rg.val.rgEnd⟩, rg.next⟩)
      some (Function.update h rgnode none)
    else some h

/-- `enlist_vm_rg_node`: the value returned, the memory and the head of the
list -/
def enlistNode (fuel : Nat) (h : Heap VmRg) (rglist : Option Nat) (rgnode : Nat) :
    Option (Int × Heap VmRg × Option Nat) := do
  let rg ← h rgnode
  if rg.val.rgEnd ≤ rg.val.rgStart then some (-1, h, rglist)
  else
    let (prev, curr) ← findPlace h rg.val.rgStart fuel none rglist
    let h := Function.update h rgnode (some ⟨rg.val, curr⟩)
    let (h, rglist) ← linkNode h rglist rgnode prev
    let h ← mergeNextNode h rgnode curr
    let h ← mergePrevNode h rgnode prev
    some (0, h, rglist)

/-- The loop stops at the place of the new node. -/
theorem findPlace_eq {h : Heap VmRg} {fuel : Nat} {prev curr : Option Nat}
    {l : List (Nat × VmRg)} (rg : VmRg) (hl : Chain h curr l none) (hfuel : l.length < fuel) :
    ∃ pre post m, l = pre ++ post ∧ vals pre = passed (vals l) rg ∧
      vals post = reached (vals l) rg ∧ Chain h curr pre m ∧ Chain h m post none ∧
      findPlace h rg.rgStart fuel prev curr = some ((addrs pre).getLast?.or prev, m) := by
  obtain ⟨fuel, rfl⟩ : ∃ f, fuel = f + 1 := ⟨fuel - 1, by omega⟩
  induction l generalizing prev curr fuel with
  | nil =>
      obtain rfl : curr = none := hl
      exact ⟨[], [], none, rfl, rfl, rfl, rfl, rfl, rfl⟩
  | cons x l ih =>
      obtain ⟨a, v⟩ := x
      obtain ⟨rfl, next, hnode, hrest⟩ := id hl
      rw [findPlace, hnode, vals_cons, passed, reached]
      dsimp only
      by_cases hlt : v.rgStart < rg.rgStart
      · obtain ⟨fuel, rfl⟩ : ∃ f, fuel = f + 1 :=
          ⟨fuel - 1, by rw [List.length_cons] at hfuel; omega⟩
        obtain ⟨pre, post, m, hsplit, hpre, hpost, hchain, hchain', hfind⟩ :=
          @ih (some a) next hrest fuel (Nat.lt_of_succ_lt_succ hfuel)
        rw [if_pos hlt, hfind, List.takeWhile_cons_of_pos (by simpa using hlt),
          List.dropWhile_cons_of_pos (by simpa using hlt)]
        refine ⟨(a, v) :: pre, post, m, by rw [hsplit]; rfl, congrArg (v :: ·) hpre, hpost,
          ⟨rfl, next, hnode, hchain⟩, hchain', ?_⟩
        rw [addrs_cons, List.getLast?_cons]
        cases (addrs pre).getLast? <;> rfl
      · rw [if_neg hlt, List.takeWhile_cons_of_neg (by simpa using hlt),
          List.dropWhile_cons_of_neg (by simpa using hlt)]
        exact ⟨[], (a, v) :: l, some a, rfl, rfl, rfl, rfl, hl, rfl⟩

/-- Merging with the node behind. -/
theorem mergeNextNode_eq {h : Heap VmRg} {rgnode : Nat} {rg : VmRg} {m : Option Nat}
    {post : List (Nat × VmRg)} (hnode : h rgnode = some ⟨rg, m⟩) (hpost : Chain h m post none)
    (hfresh : rgnode ∉ addrs post) :
    ∃ h' next post', mergeNextNode h rgnode m = some h' ∧
      h' rgnode = some ⟨(mergeNext rg (vals post)).1, next⟩ ∧ Chain h' next post' none ∧
      vals post' = (mergeNext rg (vals post)).2 ∧
      Relinked h h' (rgnode :: addrs post) (rgnode :: addrs post') := by
  cases post with
  | nil =>
      obtain rfl : m = none := hpost
      exact ⟨h, none, [], rfl, hnode, rfl, rfl, .refl ..⟩
  | cons x post =>
      obtain ⟨a, v⟩ := x
      have hnodup := hpost.nodup
      obtain ⟨rfl, next, hcurr, hrest⟩ := id hpost
      rw [addrs_cons, List.nodup_cons] at hnodup
      rw [addrs_cons, List.mem_cons, not_or] at hfresh
      simp only [mergeNextNode, hnode, hcurr, Option.bind_eq_bind, Option.bind_some, vals_cons,
        mergeNext]
      by_cases htouch : rg.rgEnd = v.rgStart
      · rw [if_pos htouch, if_pos htouch]
        refine ⟨_, next, post, rfl, ?_, (hrest.update hfresh.2 _).update hnodup.1 _, rfl, ?_⟩
        · rw [Function.update_of_ne hfresh.1, Function.update_self]
        · refine (Relinked.update (List.mem_cons_self ..) _).trans (.free fun b => ?_)
          simp only [addrs_cons, List.mem_cons]
          exact or_left_comm
      · rw [if_neg htouch, if_neg htouch]
        exact ⟨h, some a, (a, v) :: post, rfl, hnode, hpost, rfl, .refl ..⟩

/-- Merging with the node before. -/
theorem mergePrevNode_eq {h : Heap VmRg} {rgnode a : Nat} {rg v : VmRg} {next : Option Nat}
    {post : List (Nat × VmRg)} (hprev : h a = some ⟨v, some rgnode⟩)
    (hnode : h rgnode = some ⟨rg, next⟩) (hpost : Chain h next post none) (hne : a ≠ rgnode)
    (ha : a ∉ addrs post) (hfresh : rgnode ∉ addrs post) :
    ∃ h' l', mergePrevNode h rgnode (some a) = some h' ∧ Chain h' (some a) l' none ∧
      vals l' = (if v.rgEnd = rg.rgStart then ⟨v.rgStart, rg.rgEnd⟩ :: vals post
        else v :: rg :: vals post) ∧
      Relinked h h' (a :: rgnode :: addrs post) (addrs l') := by
  simp only [mergePrevNode, hnode, hprev, Option.bind_eq_bind, Option.bind_some]
  by_cases htouch : v.rgEnd = rg.rgStart
  · rw [if_pos htouch, if_pos htouch]
    refine ⟨_, (a, ⟨v.rgStart, rg.rgEnd⟩) :: post, rfl, ⟨rfl, next, ?_, ?_⟩, rfl, ?_⟩
    · rw [Function.update_of_ne hne, Function.update_self]
    · exact (hpost.update ha _).update hfresh _
    · refine (Relinked.update (List.mem_cons_self ..) _).trans (.free fun b => ?_)
      simp only [addrs_cons, List.mem_cons]
      exact or_left_comm
  · rw [if_neg htouch, if_neg htouch]
    exact ⟨h, (a, v) :: (rgnode, rg) :: post, rfl,
      ⟨rfl, some rgnode, hprev, rfl, next, hnode, hpost⟩, rfl, .refl ..⟩

/-- The node becomes the first one. -/
theorem enlistNode_head {h : Heap VmRg} {rgnode : Nat} {rg : VmRg} {m : Option Nat}
    {post : List (Nat × VmRg)} (hpost : Chain h m post none) (hfresh : rgnode ∉ addrs post) :
    ∃ h' l', mergeNextNode (Function.update h rgnode (some ⟨rg, m⟩)) rgnode m = some h' ∧
      Chain h' (some rgnode) l' none ∧ vals l' = joinPrev [] (mergeNext rg (vals post)) ∧
      Relinked h h' (rgnode :: addrs post) (addrs l') := by
  obtain ⟨h', next, post', hmerge, hnode', hchain, hvals, hrel⟩ :=
    mergeNextNode_eq (Function.update_self ..) (hpost.update hfresh (some ⟨rg, m⟩)) hfresh
  refine ⟨h', (rgnode, _) :: post', hmerge, ⟨rfl, next, hnode', hchain⟩, ?_, ?_⟩
  · rw [vals_cons, hvals, joinPrev]
  · exact (Relinked.update (List.mem_cons_self ..) _).trans hrel

/-- The node comes behind the node at `a`. -/
theorem enlistNode_behind {h : Heap VmRg} {rglist m : Option Nat} {rgnode a : Nat} {rg v : VmRg}
    {pre post : List (Nat × VmRg)} (hpre : Chain h rglist pre (some a)) (ha : h a = some ⟨v, m⟩)
    (hpost : Chain h m post none) (hnodup : (addrs pre ++ a :: rgnode :: addrs post).Nodup) :
    ∃ h₁ h₂ h₃ l', linkNode (Function.update h rgnode (some ⟨rg, m⟩)) rglist rgnode (some a) =
        some (h₁, rglist) ∧ mergeNextNode h₁ rgnode m = some h₂ ∧
      mergePrevNode h₂ rgnode (some a) = some h₃ ∧ Chain h₃ rglist l' none ∧
      vals l' = joinPrev (vals pre ++ [v]) (mergeNext rg (vals post)) ∧
      Relinked h h₃ (addrs pre ++ a :: rgnode :: addrs post) (addrs l') := by
  simp only [List.nodup_append', List.nodup_cons, List.mem_cons, not_or,
    List.disjoint_left] at hnodup
  obtain ⟨-, ⟨⟨hne, hapost⟩, hfresh, -⟩, hprefix⟩ := hnodup
  have hlink : linkNode (Function.update h rgnode (some ⟨rg, m⟩)) rglist rgnode (some a) = some
      (Function.update (Function.update h rgnode (some ⟨rg, m⟩)) a (some ⟨v, some rgnode⟩),
        rglist) := by
    simp only [linkNode, Function.update_of_ne hne, ha, Option.bind_eq_bind, Option.bind_some]
  have hpost₁ := (hpost.update hfresh (some ⟨rg, m⟩)).update hapost (some ⟨v, some rgnode⟩)
  have hlinked : Relinked h
      (Function.update (Function.update h rgnode (some ⟨rg, m⟩)) a (some ⟨v, some rgnode⟩))
      (addrs pre ++ a :: rgnode :: addrs post) (addrs pre ++ a :: rgnode :: addrs post) :=
    (Relinked.update (by simp) _).trans (.update (by simp) _)
  have hnode₁ : Function.update (Function.update h rgnode (some ⟨rg, m⟩)) a
      (some ⟨v, some rgnode⟩) rgnode = some ⟨rg, m⟩ := by
    rw [Function.update_of_ne (Ne.symm hne), Function.update_self]
  have hprev₁ : Function.update (Function.update h rgnode (some ⟨rg, m⟩)) a
      (some ⟨v, some rgnode⟩) a = some ⟨v, some rgnode⟩ := Function.update_self ..
  have hkeep₁ : ∀ b ∈ addrs pre, Function.update (Function.update h rgnode (some ⟨rg, m⟩)) a
      (some ⟨v, some rgnode⟩) b = h b := by
    intro b hb
    obtain ⟨hba, hbnode, -⟩ := hprefix hb
    rw [Function.update_of_ne hba, Function.update_of_ne hbnode]
  generalize Function.update (Function.update h rgnode (some ⟨rg, m⟩)) a
    (some ⟨v, some rgnode⟩) = h₁ at hlink hpost₁ hlinked hnode₁ hprev₁ hkeep₁
  obtain ⟨h₂, next, post', hmerge, hnode₂, hpost₂, hvals, hrel⟩ :=
    mergeNextNode_eq hnode₁ hpost₁ hfresh
  -- the node is not among those behind it, and neither is the one before it
  have hfresh₂ : rgnode ∉ addrs post' := by
    have hchain : Chain h₂ (some rgnode) ((rgnode, _) :: post') none :=
      ⟨rfl, next, hnode₂, hpost₂⟩
    exact (List.nodup_cons.mp hchain.nodup).1
  have hapost₂ : a ∉ addrs post' := fun hmem => by
    have := hrel.sub (List.mem_cons_of_mem rgnode hmem)
    exact (List.mem_cons.mp this).elim hne hapost
  have hprev₂ : h₂ a = some ⟨v, some rgnode⟩ := by
    rw [hrel.frame a (by simp [hne, hapost])]
    exact hprev₁
  obtain ⟨h₃, l', hmerge', hchain₃, hvals₃, hrel₃⟩ :=
    mergePrevNode_eq hprev₂ hnode₂ hpost₂ hne hapost₂ hfresh₂
  have hwhole : Relinked h h₃ (addrs pre ++ a :: rgnode :: addrs post)
      (addrs pre ++ addrs l') := by
    have hmid := hrel.append_left (addrs pre ++ [a])
    rw [List.append_assoc, List.append_assoc] at hmid
    exact hlinked.trans (hmid.trans (hrel₃.append_left (addrs pre)))
  refine ⟨h₁, h₂, h₃, pre ++ l', hlink, hmerge, hmerge', ?_, ?_, ?_⟩
  · refine Chain.append.mpr ⟨some a, hpre.congr fun b hb => ?_, hchain₃⟩
    obtain ⟨hba, hbnode, hbpost⟩ := hprefix hb
    have hb₁ : b ∉ rgnode :: addrs post := by simp [hbnode, hbpost]
    have hb₂ : b ∉ a :: rgnode :: addrs post' := fun hmem =>
      (List.mem_cons.mp hmem).elim hba fun hmem => hb₁ (hrel.sub hmem)
    rw [hrel₃.frame b hb₂, hrel.frame b hb₁, hkeep₁ b hb]
  · rw [vals_append, hvals₃, joinPrev_concat, hvals]
  · rw [addrs_append]
    exact hwhole

/-- On a list and a node outside it `enlist_vm_rg_node` follows no null or
dangling pointer and comes to an end. The list holds the regions
`enlistVmRgNode` gives, and the node merged away, if any, is freed. -/
theorem enlistNode_refines {h : Heap VmRg} {rglist next : Option Nat} {rgnode fuel : Nat}
    {rg : VmRg} {l : List (Nat × VmRg)} (hl : Chain h rglist l none)
    (hnode : h rgnode = some ⟨rg, next⟩) (hfresh : rgnode ∉ addrs l)
    (hrg : rg.rgStart < rg.rgEnd) (hfuel : l.length < fuel) :
    ∃ h' head l', enlistNode fuel h rglist rgnode = some (0, h', head) ∧ Chain h' head l' none ∧
      vals l' = enlistVmRgNode (vals l) rg ∧
      Relinked h h' (rgnode :: addrs l) (addrs l') := by
  have hnodup := hl.nodup
  obtain ⟨pre, post, m, rfl, hpre, hpost, hchain, hchain', hfind⟩ :=
    @findPlace_eq h fuel none rglist l rg hl hfuel
  rw [enlistVmRgNode_eq hrg, ← hpre, ← hpost]
  simp only [enlistNode, hnode, Option.bind_eq_bind, Option.bind_some, if_neg hrg.not_ge, hfind,
    Option.or_none]
  rw [addrs_append] at hfresh hnodup
  obtain rfl | ⟨pre, ⟨a, v⟩, rfl⟩ := List.eq_nil_or_concat' pre
  · obtain ⟨h', l', hmerge, hl', hvals, hrel⟩ := @enlistNode_head h rgnode rg m post hchain' hfresh
    refine ⟨h', some rgnode, l', ?_, hl', hvals, hrel⟩
    simp only [addrs, List.map_nil, List.getLast?_nil, linkNode, Option.bind_some, hmerge,
      mergePrevNode]
  · obtain ⟨p, hbefore, rfl, m', ha, rfl⟩ := Chain.append.mp hchain
    rw [addrs_append, List.append_assoc, addrs_cons, addrs_nil, List.singleton_append]
      at hfresh hnodup
    have hperm : (addrs pre ++ a :: rgnode :: addrs post).Perm
        (rgnode :: (addrs pre ++ a :: addrs post)) :=
      ((List.Perm.swap ..).append_left _).trans List.perm_middle
    obtain ⟨h₁, h₂, h₃, l', hlink, hmerge, hmerge', hl', hvals, hrel⟩ :=
      @enlistNode_behind h rglist m' rgnode a rg v pre post hbefore ha hchain'
        (hperm.nodup_iff.mpr (List.nodup_cons.mpr ⟨hfresh, hnodup⟩))
    refine ⟨h₃, rglist, l', ?_, hl', ?_, hrel.congr fun b => ?_⟩
    · simp only [addrs_append, addrs_cons, addrs_nil, List.getLast?_concat, hlink,
        Option.bind_some, hmerge, hmerge']
    · rw [hvals, vals_append]
      rfl
    · rw [hperm.mem_iff, addrs_append, addrs_append, List.append_assoc]
      rfl

/-! ### `get_free_vmrg_area` -/

/-- The node at `a` is used up. It takes over the contents of the next node,
which is freed; the last node stays behind empty. -/
def removeNode (h : Heap VmRg) (a : Nat) : Option (Heap VmRg) := do
  let node ← h a
  match node.next with
  | some b =>
    let nextrg ← h b
    let h := Function.update h a (some nextrg)
    some (Function.update h b none)
  | none => some (Function.update h a (some ⟨⟨node.val.rgEnd, node.val.rgEnd⟩, none⟩))

/-- The search of `get_free_vmrg_area`: the region taken and the memory. The
head of the list is not written. -/
def takeFreeNode (h : Heap VmRg) (size : Nat) :
    (fuel : Nat) → (rgit : Option Nat) → Option (Option VmRg × Heap VmRg)
  | 0, _ => none
  | _ + 1, none => some (none, h)
  | fuel + 1, some a => do
    let node ← h a
    let stop := (node.val.rgStart + size) % 2 ^ 64
    if stop ≤ node.val.rgEnd then
      if stop < node.val.rgEnd then
        some (some ⟨node.val.rgStart, stop⟩,
          Function.update h a (some ⟨⟨stop, node.val.rgEnd⟩, node.next⟩))
      else
        let h ← removeNode h a
        some (some ⟨node.val.rgStart, stop⟩, h)
    else takeFreeNode h size fuel node.next

theorem removeNode_eq {h : Heap VmRg} {a : Nat} {rg : VmRg} {post : List (Nat × VmRg)}
    (hl : Chain h (some a) ((a, rg) :: post) none) :
    ∃ h' l', removeNode h a = some h' ∧ Chain h' (some a) l' none ∧
      vals l' = (if vals post = [] then [⟨rg.rgEnd, rg.rgEnd⟩] else vals post) ∧
      Relinked h h' (a :: addrs post) (addrs l') := by
  have hnodup := hl.nodup
  obtain ⟨-, next, hnode, hpost⟩ := hl
  cases post with
  | nil =>
      obtain rfl : next = none := hpost
      simp only [removeNode, hnode, Option.bind_eq_bind, Option.bind_some]
      refine ⟨_, [(a, ⟨rg.rgEnd, rg.rgEnd⟩)], rfl, ⟨rfl, none, ?_, rfl⟩, rfl, ?_⟩
      · exact Function.update_self ..
      · exact .update (List.mem_cons_self ..) _
  | cons x post =>
      obtain ⟨b, v⟩ := x
      obtain ⟨rfl, next, hnext, hrest⟩ := hpost
      simp only [addrs_cons, List.nodup_cons, List.mem_cons, not_or] at hnodup
      obtain ⟨⟨hne, ha⟩, hb, -⟩ := hnodup
      simp only [removeNode, hnode, hnext, Option.bind_eq_bind, Option.bind_some]
      refine ⟨_, (a, v) :: post, rfl, ⟨rfl, next, ?_, ?_⟩, ?_, ?_⟩
      · rw [Function.update_of_ne hne, Function.update_self]
      · exact (hrest.update ha _).update hb _
      · rw [vals_cons, vals_cons, if_neg (List.cons_ne_nil _ _)]
      · refine (Relinked.update (List.mem_cons_self ..) _).trans (.free fun c => ?_)
        simp only [addrs_cons, List.mem_cons]
        exact or_left_comm

/-- On a list the search follows no null or dangling pointer and comes to an
end. What it takes and leaves is what `takeFree` says, behind the same head,
and the node that is copied away is freed. -/
theorem takeFreeNode_refines {h : Heap VmRg} {size fuel : Nat} {rgit : Option Nat}
    {l : List (Nat × VmRg)} (hl : Chain h rgit l none) (hfuel : l.length < fuel) :
    ∃ r h' l', takeFreeNode h size fuel rgit = some (r, h') ∧ Chain h' rgit l' none ∧
      takeFree size (vals l) = r.map (·, vals l') ∧ (r = none → h' = h) ∧
      Relinked h h' (addrs l) (addrs l') := by
  obtain ⟨fuel, rfl⟩ : ∃ f, fuel = f + 1 := ⟨fuel - 1, by omega⟩
  induction l generalizing rgit fuel with
  | nil =>
      obtain rfl : rgit = none := hl
      exact ⟨none, h, [], rfl, rfl, rfl, fun _ => rfl, .refl ..⟩
  | cons x l ih =>
      obtain ⟨a, v⟩ := x
      have hnodup := hl.nodup
      obtain ⟨rfl, next, hnode, hrest⟩ := id hl
      rw [addrs_cons, List.nodup_cons] at hnodup
      simp only [takeFreeNode, hnode, Option.bind_eq_bind, Option.bind_some, vals_cons, takeFree]
      by_cases hfit : (v.rgStart + size) % 2 ^ 64 ≤ v.rgEnd
      · rw [if_pos hfit, if_pos hfit]
        by_cases hleft : (v.rgStart + size) % 2 ^ 64 < v.rgEnd
        · rw [if_pos hleft, if_pos hleft]
          refine ⟨_, _, (a, ⟨(v.rgStart + size) % 2 ^ 64, v.rgEnd⟩) :: l, rfl, ?_, rfl, ?_, ?_⟩
          · exact ⟨rfl, next, Function.update_self .., hrest.update hnodup.1 _⟩
          · exact fun hr => absurd hr (Option.some_ne_none _)
          · exact .update (List.mem_cons_self ..) _
        · obtain ⟨h', l', hremove, hl', hvals, hrel⟩ := removeNode_eq hl
          rw [if_neg hleft, if_neg hleft, hremove]
          refine ⟨_, h', l', rfl, hl', ?_, ?_, hrel⟩
          · rw [hvals]
            rfl
          · exact fun hr => absurd hr (Option.some_ne_none _)
      · obtain ⟨fuel, rfl⟩ : ∃ f, fuel = f + 1 :=
          ⟨fuel - 1, by rw [List.length_cons] at hfuel; omega⟩
        obtain ⟨r, h', l', htake, hl', hvals, hnone, hrel⟩ :=
          ih hrest fuel (Nat.lt_of_succ_lt_succ hfuel)
        rw [if_neg hfit, if_neg hfit, htake, hvals]
        -- the node passed over is not written
        have hnode' : h' a = some ⟨v, next⟩ := by
          rw [hrel.frame a hnodup.1]
          exact hnode
        refine ⟨r, h', (a, v) :: l', rfl, ⟨rfl, next, hnode', hl'⟩, ?_, hnone,
          hrel.append_left [a]⟩
        rw [Option.map_map]
        rfl

/-! ### Runs -/

/-- What is done to the free list. A region comes back in a new node, as
`__free` and `inc_vma_limit` do it, or one is taken. -/
inductive ListCall where
  | give (rg : VmRg)
  | take (size : Nat)

/-- The region is refused, and its node is not freed. -/
def ListCall.refused : ListCall → Bool
  | give rg => rg.rgEnd ≤ rg.rgStart
  | take _ => false

def ListCall.onRegions : ListCall → List VmRg → List VmRg
  | give rg, l => enlistVmRgNode l rg
  | take size, l => ((takeFree size l).map Prod.snd).getD l

section Runs

variable (malloc : Heap VmRg → Nat)

def ListCall.onNodes (fuel : Nat) :
    ListCall → Heap VmRg × Option Nat → Option (Heap VmRg × Option Nat)
  | give rg, (h, head) => do
    let rgnode := malloc h
    let r ← enlistNode fuel (Function.update h rgnode (some ⟨rg, none⟩)) head rgnode
    some r.2
  | take size, (h, head) => do
    let r ← takeFreeNode h size fuel head
    some (r.2, head)

variable {malloc} {h : Heap VmRg} {head : Option Nat} {l : List (Nat × VmRg)} {lost : List Nat}
  {fuel : Nat}

/-- A region that is not empty comes back. -/
theorem give_onNodes {rg : VmRg} (hl : Chain h head l none) (hh : InUse h (addrs l) lost)
    (hfree : h (malloc h) = none) (hfuel : l.length < fuel) (hrg : rg.rgStart < rg.rgEnd) :
    ∃ h' head' l', (ListCall.give rg).onNodes malloc fuel (h, head) = some (h', head') ∧
      Chain h' head' l' none ∧ InUse h' (addrs l') lost ∧
      vals l' = enlistVmRgNode (vals l) rg ∧ l'.length ≤ l.length + 1 := by
  have hfresh := (hh.notMem_of_free hfree).1
  obtain ⟨h', head', l', henlist, hl', hvals, hrel⟩ :=
    enlistNode_refines (hl.update hfresh (some ⟨rg, none⟩)) (Function.update_self ..) hfresh hrg
      hfuel
  refine ⟨h', head', l', ?_, hl', ?_, hvals, ?_⟩
  · simp only [ListCall.onNodes, henlist, Option.bind_eq_bind, Option.bind_some]
  · exact (hh.malloc hfree ⟨rg, none⟩).relinked hrel fun b hb => hl'.allocated hb
  · have hlen := hl'.nodup.length_le_of_subset hrel.sub
    simpa [addrs] using hlen

/-- An empty region is refused, and the node stays allocated with nothing
leading to it. -/
theorem refused_onNodes {rg : VmRg} (hl : Chain h head l none) (hh : InUse h (addrs l) lost)
    (hfree : h (malloc h) = none) (hrg : rg.rgEnd ≤ rg.rgStart) :
    ∃ h', (ListCall.give rg).onNodes malloc fuel (h, head) = some (h', head) ∧
      Chain h' head l none ∧ InUse h' (addrs l) (malloc h :: lost) := by
  have hfresh := (hh.notMem_of_free hfree).1
  refine ⟨Function.update h (malloc h) (some ⟨rg, none⟩), ?_, hl.update hfresh _, ?_⟩
  · simp only [ListCall.onNodes, enlistNode, Function.update_self, Option.bind_eq_bind,
      Option.bind_some, if_pos hrg]
  · exact (hh.malloc hfree _).lose hfresh

theorem take_onNodes (size : Nat) (hl : Chain h head l none) (hh : InUse h (addrs l) lost)
    (hfuel : l.length < fuel) :
    ∃ h' l', (ListCall.take size).onNodes malloc fuel (h, head) = some (h', head) ∧
      Chain h' head l' none ∧ InUse h' (addrs l') lost ∧
      vals l' = (ListCall.take size).onRegions (vals l) ∧ l'.length ≤ l.length := by
  obtain ⟨r, h', l', htake, hl', hvals, hnone, hrel⟩ :=
    @takeFreeNode_refines h size fuel head l hl hfuel
  refine ⟨h', l', ?_, hl', ?_, ?_, ?_⟩
  · simp only [ListCall.onNodes, htake, Option.bind_eq_bind, Option.bind_some]
  · exact hh.relinked hrel fun b hb => hl'.allocated hb
  · rw [ListCall.onRegions, hvals]
    cases r with
    | none =>
        obtain rfl := hnone rfl
        rw [hl'.unique hl]
        rfl
    | some rg => rfl
  · have hlen := hl'.nodup.length_le_of_subset hrel.sub
    simpa [addrs] using hlen

/-- One call. -/
theorem onNodes_refines (c : ListCall) (hl : Chain h head l none)
    (hh : InUse h (addrs l) lost) (hfree : h (malloc h) = none) (hfuel : l.length < fuel) :
    ∃ h' head' l' lost', c.onNodes malloc fuel (h, head) = some (h', head') ∧
      Chain h' head' l' none ∧ InUse h' (addrs l') lost' ∧
      vals l' = c.onRegions (vals l) ∧ l'.length ≤ l.length + 1 ∧
      lost'.length = lost.length + if c.refused then 1 else 0 := by
  cases c with
  | give rg =>
      by_cases hrg : rg.rgEnd ≤ rg.rgStart
      · obtain ⟨h', hstep, hl', hh'⟩ :=
          @refused_onNodes malloc h head l lost fuel rg hl hh hfree hrg
        refine ⟨h', head, l, malloc h :: lost, hstep, hl', hh', ?_, Nat.le_succ _, ?_⟩
        · rw [ListCall.onRegions, enlistVmRgNode.eq_def, if_pos hrg]
        · rw [if_pos (by simpa [ListCall.refused] using hrg), List.length_cons]
      · obtain ⟨h', head', l', hstep, hl', hh', hvals, hlen⟩ :=
          @give_onNodes malloc h head l lost fuel rg hl hh hfree hfuel (by omega)
        refine ⟨h', head', l', lost, hstep, hl', hh', hvals, hlen, ?_⟩
        rw [if_neg (by simpa [ListCall.refused] using hrg), Nat.add_zero]
  | take size =>
      obtain ⟨h', l', hstep, hl', hh', hvals, hlen⟩ :=
        @take_onNodes malloc h head l lost fuel size hl hh hfuel
      exact ⟨h', head, l', lost, hstep, hl', hh', hvals, Nat.le_succ_of_le hlen, rfl⟩

/-- Along every run of calls no null or dangling pointer is followed and
nothing is freed twice. The list always holds what the functions on regions
compute, and the nodes allocated besides are one for each region refused. -/
theorem runCalls_refines
    (hmalloc : ∀ h : Heap VmRg, (∃ a, h a = none) → h (malloc h) = none)
    (calls : List ListCall) (hl : Chain h head l none) (hh : InUse h (addrs l) lost)
    (hfuel : l.length + calls.length < fuel) :
    ∃ h' head' l' lost',
      calls.foldlM (fun s c => c.onNodes malloc fuel s) (h, head) = some (h', head') ∧
      Chain h' head' l' none ∧ InUse h' (addrs l') lost' ∧
      vals l' = calls.foldl (fun r c => c.onRegions r) (vals l) ∧
      lost'.length = lost.length + calls.countP ListCall.refused := by
  induction calls generalizing h head l lost with
  | nil => exact ⟨h, head, l, lost, rfl, hl, hh, rfl, rfl⟩
  | cons c calls ih =>
      have hfree := hmalloc h hh.exists_free
      rw [List.length_cons] at hfuel
      obtain ⟨h₁, head₁, l₁, lost₁, hstep, hl₁, hh₁, hvals₁, hlen₁, hlost₁⟩ :=
        @onNodes_refines malloc h head l lost fuel c hl hh hfree (by omega)
      obtain ⟨h', head', l', lost', hrun, hl', hh', hvals, hlost⟩ := ih hl₁ hh₁ (by omega)
      refine ⟨h', head', l', lost', ?_, hl', hh', ?_, ?_⟩
      · rw [List.foldlM_cons, hstep]
        exact hrun
      · rw [hvals, hvals₁, List.foldl_cons]
      · rw [hlost, hlost₁, List.countP_cons]
        omega

end Runs

end Ossim.Mem
