import Kogata.Kernel.VfsMove

/-!
# What walks leave behind

A walk and `unref_fs_node` give new nodes new identities and do not rename or move the old ones.
Where the same references are held before and after, and the counts are exact, the nodes in memory
are then the same ones, with the same tables: those that a walk has made and released are gone.
-/

namespace Kogata.Kernel

open Lib.Effect Lib.Tally

variable {D ω : Type} {view : D → ω} {s s' : Vfs D}

/-- Nodes from before have the names and parents that they had, none of them comes back, and what
is seen of the driver's state is the same. -/
structure Stable (view : D → ω) (s s' : Vfs D) : Prop where
  next : s.nextNode ≤ s'.nextNode
  node : ∀ n < s.nextNode, ∀ nd', s'.node n = some nd' →
    ∃ nd, s.node n = some nd ∧ nd'.name = nd.name ∧ nd'.parent = nd.parent
  driver : view s'.driver = view s.driver

instance : Std.Refl (Stable view) :=
  ⟨fun _ => ⟨Nat.le_refl _, fun _ _ nd' hn => ⟨nd', hn, rfl, rfl⟩, rfl⟩⟩

instance : IsTrans (Vfs D) (Stable view) where
  trans := fun s s' s'' h h' => by
    refine ⟨Nat.le_trans h.next h'.next, fun n hn nd'' hnode => ?_, h'.driver.trans h.driver⟩
    obtain ⟨nd', hnode', hname', hparent'⟩ := h'.node n (Nat.lt_of_lt_of_le hn h.next) nd'' hnode
    obtain ⟨nd, hold, hname, hparent⟩ := h.node n hn nd' hnode'
    exact ⟨nd, hold, hname'.trans hname, hparent'.trans hparent⟩

/-- What is seen of the driver's state does not change in a walk. -/
structure Driver.Silent (d : Driver D) (view : D → ω) : Prop where
  walk : ∀ base file n x, view (d.walk base file n x).2 = view x
  dispose : ∀ n x, view (d.dispose n x) = view x
  shutdown : ∀ x, view (d.shutdown x) = view x

section Keeps

theorem stable_the_node (n : NodeId) : Keeps (Stable view) (theNode n : VfsCall D FsNode) := by
  refine keeps_get.bind fun s => ?_
  cases s.node n with
  | none => exact keeps_throw _
  | some nd => exact keeps_pure nd

theorem stable_the_fs : Keeps (Stable view) (theFs : VfsCall D Fs) := by
  refine keeps_get.bind fun s => ?_
  cases s.fs with
  | none => exact keeps_throw _
  | some fs => exact keeps_pure fs

theorem stable_put_fs (fs : Option Fs) : Keeps (Stable view) (putFs fs : VfsCall D Unit) :=
  keeps_modify fun _ => ⟨Nat.le_refl _, fun _ _ nd' hn => ⟨nd', hn, rfl, rfl⟩, rfl⟩

/-- A block is written with the same name and parent, or freed. -/
theorem stable_put {n : NodeId} {nd : FsNode} {nd' : Option FsNode} (hn : s.node n = some nd)
    (hkeep : ∀ new, nd' = some new → new.name = nd.name ∧ new.parent = nd.parent) :
    Stable view s (s.put n nd') where
  next := Nat.le_refl _
  node := fun m _ md' hm => by
    by_cases hmn : m = n
    · rw [hmn, Vfs.put_node_self] at hm
      obtain ⟨hname, hparent⟩ := hkeep md' hm
      exact ⟨nd, hmn ▸ hn, hname, hparent⟩
    · rw [Vfs.put_node_of_ne s hmn] at hm
      exact ⟨md', hm, rfl, rfl⟩
  driver := rfl

theorem stable_free (n : NodeId) : Keeps (Stable view) (putNode n none : VfsCall D Unit) := by
  refine keeps_modify fun s => ⟨Nat.le_refl _, fun m _ md' hm => ?_, rfl⟩
  by_cases hmn : m = n
  · rw [hmn] at hm
    simp at hm
  · exact ⟨md', (Function.update_of_ne hmn ..).symm.trans hm, rfl, rfl⟩

theorem stable_change_node (n : NodeId) {change : FsNode → FsNode}
    (hkeep : ∀ nd, (change nd).name = nd.name ∧ (change nd).parent = nd.parent) :
    Keeps (Stable view) (changeNode n change : VfsCall D Unit) := by
  intro s a s' hrun
  obtain ⟨nd, mid, hnode, hput⟩ := run_bind_eq_ok hrun
  cases hn : s.node n with
  | none =>
      rw [theNode, run_get_bind] at hnode
      rw [hn] at hnode
      cases hnode
  | some nd' =>
      rw [the_node_run hn] at hnode
      cases hnode
      cases hput
      exact stable_put hn fun new heq => by
        cases heq
        exact hkeep nd

theorem stable_lock_node (n : NodeId) : Keeps (Stable view) (lockNode n : VfsCall D Unit) :=
  (stable_the_node n).bind fun _ => keeps_ite (fun _ => keeps_throw _)
    fun _ => stable_change_node n fun _ => ⟨rfl, rfl⟩

theorem stable_unlock_node (n : NodeId) : Keeps (Stable view) (unlockNode n : VfsCall D Unit) :=
  stable_change_node n fun _ => ⟨rfl, rfl⟩

theorem stable_lock_fs : Keeps (Stable view) (lockFs : VfsCall D Unit) :=
  stable_the_fs.bind fun _ => keeps_ite (fun _ => keeps_throw _) fun _ => stable_put_fs _

theorem stable_unlock_fs : Keeps (Stable view) (unlockFs : VfsCall D Unit) :=
  stable_the_fs.bind fun _ => stable_put_fs _

theorem stable_ask_driver {α : Type} {question : D → α × D}
    (hkeep : ∀ x, view (question x).2 = view x) :
    Keeps (Stable view) (askDriver question : VfsCall D α) := by
  intro s a s' hrun
  cases hrun
  exact ⟨Nat.le_refl _, fun _ _ nd' hn => ⟨nd', hn, rfl, rfl⟩, hkeep s.driver⟩

theorem stable_tell_driver {change : D → D} (hkeep : ∀ x, view (change x) = view x) :
    Keeps (Stable view) (tellDriver change : VfsCall D Unit) :=
  keeps_modify fun s => ⟨Nat.le_refl _, fun _ _ nd' hn => ⟨nd', hn, rfl, rfl⟩, hkeep s.driver⟩

theorem stable_assert (cond : Bool) : Keeps (Stable view) (assertVfs cond : VfsCall D Unit) :=
  keeps_ite (fun _ => keeps_pure _) fun _ => keeps_throw _

theorem stable_new_node (nd : FsNode) : Keeps (Stable view) (newNode nd : VfsCall D NodeId) := by
  intro s a s' hrun
  cases hrun
  refine ⟨Nat.le_succ _, fun n hn nd' hnode => ⟨nd', ?_, rfl, rfl⟩, rfl⟩
  exact (Function.update_of_ne (Nat.ne_of_lt hn) ..).symm.trans hnode

theorem stable_remove_child (n : NodeId) (name : Name) :
    Keeps (Stable view) (removeChild n name : VfsCall D Unit) := by
  intro s a s' hrun
  cases hn : s.node n with
  | none =>
      obtain ⟨nd, mid, hnode, -⟩ := run_bind_eq_ok hrun
      rw [theNode, run_get_bind] at hnode
      rw [hn] at hnode
      cases hnode
  | some nd =>
      cases hchildren : nd.children with
      | none =>
          unfold removeChild at hrun
          rw [run_bind_of_ok (the_node_run hn), hchildren] at hrun
          cases hrun
      | some entries =>
          rw [remove_child_run hn hchildren] at hrun
          cases hrun
          exact stable_put hn fun new heq => by
            cases heq
            exact ⟨rfl, rfl⟩

theorem stable_ref_fs : Keeps (Stable view) (refFs : VfsCall D Unit) :=
  stable_lock_fs.bind fun _ => stable_the_fs.bind fun _ => (stable_put_fs _).bind fun _ =>
    stable_unlock_fs

variable {d : Driver D}

theorem stable_unref_fs (hd : d.Silent view) : Keeps (Stable view) (unrefFs d) := by
  refine stable_lock_fs.bind fun _ => stable_the_fs.bind fun _ => (stable_put_fs _).bind fun _ => ?_
  refine keeps_ite (fun _ => ?_) fun _ => stable_unlock_fs
  exact (stable_the_node _).bind fun _ => (stable_assert _).bind fun _ =>
    (stable_tell_driver (hd.dispose _)).bind fun _ => (stable_tell_driver hd.shutdown).bind fun _ =>
      stable_put_fs _

theorem stable_ref_fs_node (n : NodeId) : Keeps (Stable view) (refFsNode n : VfsCall D Unit) :=
  (stable_lock_node n).bind fun _ =>
    (stable_change_node n (by exact fun _ => ⟨rfl, rfl⟩)).bind fun _ => stable_unlock_node n

section

variable (hd : d.Silent view)

include hd

theorem stable_unref_up_to (depth : Nat) (n : NodeId) :
    Keeps (Stable view) (unrefUpTo d depth n) := by
  induction depth generalizing n with
  | zero => exact keeps_throw _
  | succ depth ih =>
      unfold unrefUpTo
      refine (stable_lock_node n).bind fun _ =>
        (stable_change_node n (by exact fun _ => ⟨rfl, rfl⟩)).bind fun _ =>
          (stable_the_node n).bind fun nd => ?_
      refine keeps_ite (fun _ => (stable_assert _).bind fun _ => ?_) fun _ => stable_unlock_node n
      cases nd.parent with
      | none => exact keeps_throw _
      | some p =>
          exact (stable_lock_node p).bind fun _ => (stable_remove_child p _).bind fun _ =>
            (stable_tell_driver (hd.dispose n)).bind fun _ => (stable_unlock_node p).bind fun _ =>
              (ih p).bind fun _ => (stable_unref_fs hd).bind fun _ => (stable_the_node n).bind fun _ =>
                (stable_assert _).bind fun _ => stable_free n

theorem stable_unref_fs_node (n : NodeId) :
    Keeps (Stable view) (unrefFsNode d n) :=
  fun s => stable_unref_up_to hd (s.nextNode + 1) n s

theorem stable_walk_one (base : NodeId) (file : Name) :
    Keeps (Stable view) (fsWalkOne d base file) := by
  refine (stable_lock_node base).bind fun _ => (stable_the_node base).bind fun bd => ?_
  cases bd.find file with
  | some n =>
      exact (stable_ref_fs_node n).bind fun _ => (stable_unlock_node base).bind fun _ =>
        keeps_pure _
  | none =>
      refine (stable_new_node _).bind fun n => (stable_ask_driver (hd.walk base file n)).bind
        fun ok => keeps_ite (fun _ => ?_) fun _ => ?_
      · exact (stable_change_node base (by exact fun _ => ⟨rfl, rfl⟩)).bind fun _ =>
          (stable_unlock_node base).bind fun _ => (stable_ref_fs_node base).bind fun _ =>
            stable_ref_fs.bind fun _ => keeps_pure _
      · exact (stable_free n).bind fun _ => (stable_unlock_node base).bind fun _ => keeps_pure _

theorem stable_walk_except_last (items : List Name) (n : NodeId) :
    Keeps (Stable view) (walkItemsExceptLast d n items) := by
  have hgive : ∀ n, Keeps (Stable view)
      (do unrefFsNode d n; return none : VfsCall D (Option (NodeId × Name))) :=
    fun n => (stable_unref_fs_node hd n).bind fun _ => keeps_pure _
  fun_induction walkItemsExceptLast d n items with
  | case1 n => exact keeps_pure _
  | case2 n => exact hgive n
  | case3 n => exact keeps_pure _
  | case4 n => exact hgive n
  | case5 n => exact hgive n
  | case6 n => exact keeps_pure _
  | case7 n item rest _ _ _ _ ih =>
      refine (stable_walk_one hd n item).bind fun found => (stable_unref_fs_node hd n).bind fun _ => ?_
      cases found with
      | none => exact keeps_pure _
      | some n2 => exact ih n2

theorem stable_walk_path_except_last (base : NodeId) (path : Name) :
    Keeps (Stable view) (fsWalkPathExceptLast d base path) :=
  keeps_ite (fun _ => keeps_pure _) fun _ => (stable_ref_fs_node base).bind fun _ =>
    stable_walk_except_last hd _ base

end

end Keeps

section Same

variable {held : NodeId → Nat} {n c : NodeId} {nd : FsNode}

/-- The table of a node binds the live nodes whose parent it is. -/
theorem Tree.find_iff (ht : Tree s) (hn : s.node n = some nd) {name : Name} :
    nd.find name = some c ↔
      ∃ cd, s.node c = some cd ∧ 0 < cd.refs ∧ cd.parent = some n ∧ cd.name = name := by
  constructor
  · exact fun hfind => ht.entry n nd hn (name, c) (mem_of_lookup hfind)
  · intro ⟨cd, hc, hlive, hparent, hname⟩
    have hroot : c ≠ fsRoot := fun heq => by
      obtain ⟨rd, hrd, -, hnone⟩ := ht.root
      obtain rfl := Option.some.inj (hrd.symm.trans (heq ▸ hc))
      rw [hnone] at hparent
      cases hparent
    obtain ⟨p, pd, hp, -, hpd, -, hentry⟩ := ht.bound c cd hc hlive hroot
    obtain rfl := Option.some.inj (hparent.symm.trans hp)
    obtain rfl := Option.some.inj (hpd.symm.trans hn)
    exact lookup_of_mem (ht.keys n pd hpd) (hname ▸ hentry)

/-- A live node that is not the root has a child, a handle, or a reference that is held. -/
theorem Counted.in_use (hs : Counted s held) (hn : s.node n = some nd) (hlive : 0 < nd.refs)
    (hroot : n ≠ fsRoot) :
    (∃ c, n < c ∧ s.Child n c) ∨ (∃ h, s.Opens n h) ∨ 0 < held n := by
  obtain ⟨-, hexact⟩ := hs.exact n nd hn hlive
  rw [if_neg hroot] at hexact
  by_cases hchildren : s.childCount n = 0
  · by_cases hhandles : s.handleCount n = 0
    · exact .inr (.inr (by omega))
    · rw [Vfs.handleCount, Nat.count_iff_forall_not] at hhandles
      simp only [not_forall, not_not] at hhandles
      obtain ⟨h, -, hopens⟩ := hhandles
      exact .inr (.inl ⟨h, hopens⟩)
  · rw [Vfs.childCount, Nat.count_iff_forall_not] at hchildren
    simp only [not_forall, not_not] at hchildren
    obtain ⟨c, -, cd, hc, hclive, hparent⟩ := hchildren
    have hcroot : c ≠ fsRoot := fun heq => by
      obtain ⟨rd, hrd, -, hnone⟩ := hs.root
      obtain rfl := Option.some.inj (hrd.symm.trans (heq ▸ hc))
      rw [hnone] at hparent
      cases hparent
    obtain ⟨p, pd, hp, hlt, -⟩ := hs.bound c cd hc hclive hcroot
    obtain rfl := Option.some.inj (hparent.symm.trans hp)
    exact .inl ⟨c, hlt, cd, hc, hclive, hparent⟩

/-- Both states have exact counts with the same references held and the same handles. -/
structure Returned (view : D → ω) (held : NodeId → Nat) (s s' : Vfs D) : Prop
    extends Stable view s s' where
  before : Counted s held
  after : Counted s' held
  settled : Settled s
  settled' : Settled s'
  handles : s'.handle = s.handle
  nextHandle : s'.nextHandle = s.nextHandle

section

variable (h : Returned view held s s')

include h

/-- A node that was made in between is gone: its youngest descendant would have a handle or be
held, as no node from then is. -/
theorem Returned.new_gone (hn : s.nextNode ≤ n) :
    s'.node n = none := by
  -- the induction is on how many identities were given out after this one
  induction hk : s'.nextNode - n using Nat.strongRecOn generalizing n with
  | ind k ih =>
      cases hnode : s'.node n with
      | none => rfl
      | some nd =>
          have hlive := h.settled'.nodes n nd hnode
          obtain ⟨rd, hrd, -⟩ := h.before.root
          have hroot : n ≠ fsRoot := fun heq =>
            Nat.lt_irrefl n (Nat.lt_of_lt_of_le (heq ▸ h.before.old _ _ hrd) hn)
          have hyoung : ∀ md, s.node n ≠ some md := fun md hm =>
            Nat.lt_irrefl n (Nat.lt_of_lt_of_le (h.before.old n md hm) hn)
          rcases h.after.in_use hnode hlive hroot with ⟨c, hlt, cd, hc, -⟩ | ⟨f, hf⟩ | hheld
          · have hless := Nat.sub_lt_sub_left (h.after.old n nd hnode) hlt
            have hgone := ih _ (hk ▸ hless) (Nat.le_of_lt (Nat.lt_of_le_of_lt hn hlt)) rfl
            rw [hgone] at hc
            cases hc
          · obtain ⟨file, hfile, hflive, rfl⟩ := hf
            rw [h.handles] at hfile
            obtain ⟨-, hfiles⟩ := h.before.files f file hfile
            obtain ⟨-, md, hm, -⟩ := hfiles hflive
            exact absurd hm (hyoung md)
          · obtain ⟨md, hm, -⟩ := h.before.holds n hheld
            exact absurd hm (hyoung md)

/-- A node that was in memory still is: its youngest descendant has a handle or is held. -/
theorem Returned.old_stays (hn : s.node n = some nd) :
    ∃ nd', s'.node n = some nd' := by
  induction hk : s.nextNode - n using Nat.strongRecOn generalizing n nd with
  | ind k ih =>
      by_cases hroot : n = fsRoot
      · obtain ⟨rd, hrd, -⟩ := h.after.root
        exact ⟨rd, hroot ▸ hrd⟩
      · have hlive := h.settled.nodes n nd hn
        have hnext := h.before.old n nd hn
        rcases h.before.in_use hn hlive hroot with ⟨c, hlt, cd, hc, -, hparent⟩ | ⟨f, hf⟩ | hheld
        · obtain ⟨cd', hc'⟩ := ih _ (hk ▸ Nat.sub_lt_sub_left hnext hlt) hc rfl
          obtain ⟨cd₀, hc₀, -, hparent'⟩ := h.node c (h.before.old c cd hc) cd' hc'
          obtain rfl := Option.some.inj (hc.symm.trans hc₀)
          have hcroot : c ≠ fsRoot := Nat.ne_of_gt (Nat.zero_lt_of_lt hlt)
          obtain ⟨p, pd, hp, -, hpd, -⟩ :=
            h.after.bound c cd' hc' (h.settled'.nodes c cd' hc') hcroot
          obtain rfl := Option.some.inj ((hparent'.trans hparent).symm.trans hp)
          exact ⟨pd, hpd⟩
        · obtain ⟨file, hfile, hflive, rfl⟩ := hf
          rw [← h.handles] at hfile
          obtain ⟨-, hfiles⟩ := h.after.files f file hfile
          obtain ⟨-, md, hm, -⟩ := hfiles hflive
          exact ⟨md, hm⟩
        · obtain ⟨md, hm, -⟩ := h.after.holds n hheld
          exact ⟨md, hm⟩

/-- A node of the second state was in memory before, with its name and its parent. -/
theorem Returned.back {nd' : FsNode} (hn : s'.node n = some nd') :
    ∃ nd, s.node n = some nd ∧ nd'.name = nd.name ∧ nd'.parent = nd.parent := by
  refine h.node n (Nat.lt_of_not_le fun hle => ?_) nd' hn
  rw [h.new_gone hle] at hn
  cases hn

/-- A node of the first state is still in memory, with its name and its parent. -/
theorem Returned.forth (hn : s.node n = some nd) :
    ∃ nd', s'.node n = some nd' ∧ nd'.name = nd.name ∧ nd'.parent = nd.parent := by
  obtain ⟨nd', hn'⟩ := h.old_stays hn
  obtain ⟨nd₀, hn₀, hname, hparent⟩ := h.back hn'
  obtain rfl := Option.some.inj (hn.symm.trans hn₀)
  exact ⟨nd', hn', hname, hparent⟩

theorem Returned.child_iff (p c : NodeId) :
    s'.Child p c ↔ s.Child p c := by
  constructor
  · intro ⟨cd', hc', _, hparent'⟩
    obtain ⟨cd, hc, -, hparent⟩ := h.back hc'
    exact ⟨cd, hc, h.settled.nodes c cd hc, hparent ▸ hparent'⟩
  · intro ⟨cd, hc, _, hparent⟩
    obtain ⟨cd', hc', -, hparent'⟩ := h.forth hc
    exact ⟨cd', hc', h.settled'.nodes c cd' hc', hparent'.trans hparent⟩

theorem Returned.child_count (n : NodeId) :
    s'.childCount n = s.childCount n := by
  have habove : ∀ c, s.nextNode ≤ c → ¬ s'.Child n c := fun c hc ⟨cd, hnode, _⟩ => by
    rw [h.new_gone hc] at hnode
    cases hnode
  rw [Vfs.childCount, count_of_not_above h.next habove]
  exact count_congr fun c _ => h.child_iff n c

theorem Returned.handle_count (n : NodeId) :
    s'.handleCount n = s.handleCount n :=
  handle_count_congr h.nextHandle fun f => by rw [Vfs.Opens, Vfs.Opens, h.handles]

/-- The tree in memory is the same. -/
theorem Returned.same_tree : SameTree s s' := by
  intro n
  cases hn : s.node n with
  | none =>
      refine .inl ⟨rfl, ?_⟩
      cases hn' : s'.node n with
      | none => rfl
      | some nd' =>
          obtain ⟨nd, hnode, -⟩ := h.back hn'
          rw [hn] at hnode
          cases hnode
  | some nd =>
      obtain ⟨nd', hn', hname, hparent⟩ := h.forth hn
      refine .inr ⟨nd, nd', rfl, hn', ?_, hname, hparent, fun name => ?_⟩
      · obtain ⟨-, hexact⟩ := h.before.exact n nd hn (h.settled.nodes n nd hn)
        obtain ⟨-, hexact'⟩ := h.after.exact n nd' hn' (h.settled'.nodes n nd' hn')
        rw [hexact, hexact', h.child_count, h.handle_count]
      · refine Option.ext fun c => ?_
        rw [h.after.find_iff hn', h.before.find_iff hn]
        constructor
        · intro ⟨cd', hc', _, hparent', hname'⟩
          obtain ⟨cd, hc, hcname, hcparent⟩ := h.back hc'
          exact ⟨cd, hc, h.settled.nodes c cd hc, hcparent ▸ hparent', hcname ▸ hname'⟩
        · intro ⟨cd, hc, _, hparent', hname'⟩
          obtain ⟨cd', hc', hcname, hcparent⟩ := h.forth hc
          exact ⟨cd', hc', h.settled'.nodes c cd' hc', hcparent.trans hparent',
            hcname.trans hname'⟩

end

end Same

end Kogata.Kernel
