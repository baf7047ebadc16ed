import Kogata.Kernel.VfsBlocks

/-!
# References are dropped exactly once

Total specifications of the calls of the file system code, on states whose counts are exact but
for the references that the caller holds: each call comes back, and turns the held references
into those that it says. `unref_fs_node` is by induction on the depth of its recursion; what it
does to the node's parent is what it does to the node.
-/

namespace Kogata.Kernel

open Lib.Effect

variable {D : Type} {s s' : Vfs D} {held : NodeId → Nat}

/-- The step neither starts nor ends the death of a node that is in memory in both states, and
leaves the handles alone. -/
structure Quiet (s s' : Vfs D) : Prop where
  dying : ∀ n nd, ¬ 0 < nd.refs → (s'.node n = some nd ↔ s.node n = some nd)
  handle : s'.handle = s.handle
  nextHandle : s'.nextHandle = s.nextHandle

instance : Std.Refl (Quiet (D := D)) :=
  ⟨fun _ => ⟨fun _ _ _ => Iff.rfl, rfl, rfl⟩⟩

instance : IsTrans (Vfs D) Quiet :=
  ⟨fun _ _ _ h h' => ⟨fun n nd hdying => (h'.dying n nd hdying).trans (h.dying n nd hdying),
    h'.handle.trans h.handle, h'.nextHandle.trans h.nextHandle⟩⟩

theorem Quiet.refl (s : Vfs D) : Quiet s s :=
  refl_of Quiet s

theorem Quiet.trans {s'' : Vfs D} (h : Quiet s s') (h' : Quiet s' s'') : Quiet s s'' :=
  trans_of Quiet h h'

section Runs

variable {n : NodeId} {nd : FsNode} {fs : Fs}

section

variable (hn : s.node n = some nd)

include hn

theorem the_node_run : theNode n s = .ok (nd, s) := by
  rw [theNode, run_get_bind, hn]
  rfl

theorem change_node_run (change : FsNode → FsNode) :
    changeNode n change s = .ok ((), s.put n (some (change nd))) := by
  unfold changeNode
  rw [run_bind_of_ok (the_node_run hn)]
  rfl

theorem lock_node_run (hlock : nd.lock = false) :
    lockNode n s = .ok ((), s.put n (some { nd with lock := true })) := by
  unfold lockNode
  rw [run_bind_of_ok (the_node_run hn), hlock]
  exact change_node_run hn _

theorem unlock_node_run :
    unlockNode n s = .ok ((), s.put n (some { nd with lock := false })) :=
  change_node_run hn _

theorem ref_fs_node_run (hlock : nd.lock = false) :
    refFsNode n s = .ok ((), s.put n (some { nd with refs := nd.refs + 1 })) := by
  unfold refFsNode
  rw [run_bind_of_ok (lock_node_run hn hlock),
    run_bind_of_ok (change_node_run (Vfs.put_node_self ..) _),
    unlock_node_run (Vfs.put_node_self ..), Vfs.put_put, Vfs.put_put, ← hlock]

end

theorem the_fs_run (hfs : s.fs = some fs) : theFs s = .ok (fs, s) := by
  rw [theFs, run_get_bind, hfs]
  rfl

theorem lock_fs_run (hfs : s.fs = some fs) (hlock : fs.lock = false) :
    lockFs s = .ok ((), { s with fs := some { fs with lock := true } }) := by
  unfold lockFs
  rw [run_bind_of_ok (the_fs_run hfs), hlock]
  rfl

theorem ref_fs_run (hfs : s.fs = some fs) (hlock : fs.lock = false) :
    refFs s = .ok ((), { s with fs := some { fs with refs := fs.refs + 1 } }) := by
  unfold refFs
  rw [run_bind_of_ok (lock_fs_run hfs hlock), run_bind_of_ok (the_fs_run rfl)]
  show Except.ok ((), { s with fs := some { fs with refs := fs.refs + 1, lock := false } }) = _
  rw [← hlock]

/-- While something else refers to the file system, it stays. -/
theorem unref_fs_run (d : Driver D) (hfs : s.fs = some fs) (hlock : fs.lock = false)
    (hrefs : fs.refs - 1 ≠ 0) :
    unrefFs d s = .ok ((), { s with fs := some { fs with refs := fs.refs - 1 } }) := by
  unfold unrefFs
  rw [run_bind_of_ok (lock_fs_run hfs hlock), run_bind_of_ok (the_fs_run rfl)]
  show (if fs.refs - 1 = 0 then _ else unlockFs : VfsCall D Unit)
    { s with fs := some { fs with refs := fs.refs - 1, lock := true } } = _
  rw [if_neg hrefs]
  unfold unlockFs
  rw [run_bind_of_ok (the_fs_run rfl)]
  show Except.ok ((), { s with fs := some { fs with refs := fs.refs - 1, lock := false } }) = _
  rw [← hlock]

theorem assert_vfs_run {cond : Bool} (h : cond = true) : assertVfs cond s = .ok ((), s) := by
  rw [h]
  rfl

theorem remove_child_run {name : Name} {entries : List (Name × NodeId)} (hn : s.node n = some nd)
    (hchildren : nd.children = some entries) : removeChild n name s = .ok ((), s.put n
      (some { nd with children := some (nd.entries.filter fun e => e.1 != name) })) := by
  unfold removeChild
  rw [run_bind_of_ok (the_node_run hn), FsNode.entries, hchildren]
  rfl

end Runs

section Unref

variable {n p : NodeId} {nd pd : FsNode}

/-- The state in which `n` has left its parent's table, as the code reaches it. -/
theorem detach_run (d : Driver D) (hp : s.node p = some pd) (hne : n ≠ p)
    (hlock : pd.lock = false) (hentry : (nd.name, n) ∈ pd.entries) (rest : VfsCall D Unit) :
    (do
      lockNode p
      removeChild p nd.name
      tellDriver (d.dispose n)
      unlockNode p
      rest : VfsCall D Unit) (s.put n (some { nd with refs := 0, lock := true })) =
    rest { s.detach n p nd pd with driver := d.dispose n s.driver } := by
  have hchildren : ∃ entries, pd.children = some entries := by
    cases hc : pd.children with
    | none =>
        rw [FsNode.entries, hc] at hentry
        cases hentry
    | some entries => exact ⟨entries, rfl⟩
  obtain ⟨entries, hchildren⟩ := hchildren
  have hp' : (s.put n (some { nd with refs := 0, lock := true })).node p = some pd := by
    rw [Vfs.put_node_of_ne _ (Ne.symm hne), hp]
  have hlocked : ({ pd with lock := true } : FsNode).children = some entries := hchildren
  rw [run_bind_of_ok (lock_node_run hp' hlock),
    run_bind_of_ok (remove_child_run (Vfs.put_node_self ..) hlocked), Vfs.put_put]
  show (unlockNode p >>= fun _ => rest) ((({ s with driver := d.dispose n s.driver } : Vfs D).put n
    (some { nd with refs := 0, lock := true })).put p (some { pd with
      children := some (pd.entries.filter fun e => e.1 != nd.name), lock := true })) = _
  rw [run_bind_of_ok (unlock_node_run (Vfs.put_node_self ..)), Vfs.put_put, ← hlock]
  rfl

/-- Dropping a reference that is not the last one, or taking one, is quiet. -/
theorem quiet_put_live {nd' : FsNode} (hn : s.node n = some nd) (hlive : 0 < nd.refs)
    (hlive' : 0 < nd'.refs) : Quiet s (s.put n (some nd')) := by
  refine ⟨fun m md hdying => ?_, rfl, rfl⟩
  by_cases hmn : m = n
  · subst hmn
    rw [Vfs.put_node_self, hn]
    constructor
    · rintro ⟨⟩
      exact absurd hlive' hdying
    · rintro ⟨⟩
      exact absurd hlive hdying
  · rw [Vfs.put_node_of_ne s hmn]

/-- After `n` has left its parent's table and the parent's reference is gone, its block is still
there; freeing it is quiet. -/
theorem quiet_free {fs : Fs} {driver : D} (hn : s.node n = some nd) (hlive : 0 < nd.refs)
    (hp : s.node p = some pd) (hplive : 0 < pd.refs)
    (h : Quiet { s.detach n p nd pd with driver := driver } s') : Quiet s (s'.free n fs) := by
  refine ⟨fun m md hdying => ?_, h.handle, h.nextHandle⟩
  by_cases hmn : m = n
  · subst hmn
    rw [free_node_self, hn]
    constructor
    · rintro ⟨⟩
    · rintro ⟨⟩
      exact absurd hlive hdying
  · rw [free_node_of_ne hmn, h.dying m md hdying]
    show (s.detach n p nd pd).node m = some md ↔ _
    by_cases hmp : m = p
    · subst hmp
      rw [detach_node_parent, hp]
      constructor
      · rintro ⟨⟩
        exact absurd hplive hdying
      · rintro ⟨⟩
        exact absurd hplive hdying
    · rw [detach_node_of_ne hmn hmp]

/-- `unref_fs_node` drops the reference that is held, and every reference that nodes without
references had. The induction is on the depth; a parent is older than its child. -/
theorem unref_up_to_yields (d : Driver D) {depth : Nat} (hs : Counted s (plus n held))
    (hdepth : n < depth) :
    Yields (unrefUpTo d depth n) s fun _ s' => Counted s' held ∧ Quiet s s' := by
  induction depth generalizing n s with
  | zero => exact absurd hdepth (Nat.not_lt_zero n)
  | succ depth ih =>
      obtain ⟨nd, hn, hlive⟩ := hs.holds n (by rw [plus_self]; exact Nat.succ_pos _)
      obtain ⟨hlock, hexact⟩ := hs.exact n nd hn hlive
      unfold unrefUpTo
      refine yields_bind_of_run (lock_node_run hn hlock) ?_
      refine yields_bind_of_run (change_node_run (Vfs.put_node_self ..) _) ?_
      refine yields_bind_of_run (the_node_run (Vfs.put_node_self ..)) ?_
      rw [Vfs.put_put]
      refine yields_ite (fun hzero => ?_) fun hpos => ?_
      · -- The last reference: the node leaves the tree, then its parent is dropped.
        have hone : nd.refs = 1 := by
          change nd.refs - 1 = 0 at hzero
          omega
        obtain ⟨hroot, -, hchildren, -⟩ := hs.last hn hone
        obtain ⟨p, pd, hparent, hlt, hp, hplive, hentry⟩ := hs.bound n nd hn hlive hroot
        have hne : n ≠ p := Nat.ne_of_gt hlt
        have hplock := (hs.exact p pd hp hplive).1
        refine yields_bind_of_run (assert_vfs_run (by simpa using hroot)) ?_
        have hdying : ({ nd with refs := nd.refs - 1, lock := true } : FsNode) =
            { nd with refs := 0, lock := true } := by rw [hone]; rfl
        change Yields _ (s.put n (some { nd with refs := nd.refs - 1, lock := true })) _
        rw [hdying]
        have hdetach := (hs.detach hn hone hparent hlt hp hentry).driver (d.dispose n s.driver)
        obtain ⟨_, s₁, hrun, hs₁, hquiet⟩ :=
          ih hdetach (Nat.lt_of_lt_of_le hlt (Nat.le_of_lt_succ hdepth))
        have hn₁ : s₁.node n = some { nd with refs := 0, lock := true } := by
          refine (hquiet.dying n _ (by simp)).mpr ?_
          exact detach_node_self hne
        obtain ⟨fs, hfs, hunlocked, htotal⟩ := hs₁.fsExact
        have hbelow : 0 < s₁.nodeTotal := by
          rw [Vfs.nodeTotal, Nat.pos_iff_ne_zero, Ne, Nat.count_iff_forall_not]
          intro hnone
          exact hnone n (hs₁.old n _ hn₁) ⟨hroot, by rw [hn₁]; rfl⟩
        have hempty : ({ nd with refs := 0, lock := true } : FsNode).entries = [] := by
          show nd.entries = []
          exact hs.entries_nil hn hchildren
        split
        · next hnone => exact absurd (hparent.symm.trans hnone) (by simp)
        · next q hq =>
            obtain rfl : p = q := Option.some.inj (hparent.symm.trans hq)
            refine ⟨(), s₁.free n fs, ?_, ?_, ?_⟩
            · refine (detach_run d hp hne hplock hentry _).trans ?_
              rw [run_bind_of_ok hrun, run_bind_of_ok (unref_fs_run d hfs hunlocked (by omega))]
              have hlast : Vfs.node { s₁ with fs := some { fs with refs := fs.refs - 1 } } n =
                  some { nd with refs := 0, lock := true } := hn₁
              rw [run_bind_of_ok (the_node_run hlast), hempty]
              rfl
            · exact hs₁.free hn₁ (by simp) hroot hfs
            · exact quiet_free hn hlive hp hplive hquiet
      · have hrefs : 0 < nd.refs - 1 := by
          change nd.refs - 1 ≠ 0 at hpos
          omega
        refine yields_of_run (unlock_node_run (Vfs.put_node_self ..)) ?_
        rw [Vfs.put_put]
        refine ⟨hs.put_alike hn ⟨⟨fun _ => hlive, fun _ => hrefs⟩, rfl, rfl, rfl⟩ hlive rfl ?_ ?_,
          quiet_put_live hn hlive hrefs⟩
        · show nd.refs - 1 + (plus n held n : Nat) = nd.refs + held n
          rw [plus_self]
          omega
        · exact fun m hm => (plus_of_ne hm held).symm

theorem unref_fs_node_eq (d : Driver D) (n : NodeId) (s : Vfs D) :
    unrefFsNode d n s = unrefUpTo d (s.nextNode + 1) n s := rfl

/-- `unref_fs_node`. -/
theorem unref_fs_node_yields (d : Driver D) (hs : Counted s (plus n held)) :
    Yields (unrefFsNode d n) s fun _ s' => Counted s' held ∧ Quiet s s' := by
  obtain ⟨nd, hn, -⟩ := hs.holds n (by rw [plus_self]; exact Nat.succ_pos _)
  obtain ⟨_, s', hrun, hpost⟩ := unref_up_to_yields d hs (Nat.lt_succ_of_lt (hs.old n nd hn))
  exact ⟨(), s', (unref_fs_node_eq d n s).trans hrun, hpost⟩

end Unref

section Walk

variable {base n : NodeId}

/-- The references held when a walk has come back: one more to the node that it found. -/
def plusFound (found : Option NodeId) (held : NodeId → Nat) : NodeId → Nat :=
  found.elim held fun n => plus n held

/-- `ref_fs_node`. -/
theorem ref_fs_node_yields (hs : Counted s held) {nd : FsNode} (hn : s.node n = some nd)
    (hlive : 0 < nd.refs) :
    Yields (refFsNode n) s fun _ s' => Counted s' (plus n held) ∧ Quiet s s' := by
  obtain ⟨hlock, -⟩ := hs.exact n nd hn hlive
  have hlive' : 0 < nd.refs + 1 := by omega
  refine yields_of_run (ref_fs_node_run hn hlock) ⟨?_, quiet_put_live hn hlive hlive'⟩
  refine hs.put_alike hn ⟨⟨fun _ => hlive, fun _ => hlive'⟩, rfl, rfl, rfl⟩ hlive hlock ?_ ?_
  · show nd.refs + 1 + (held n : Int) = nd.refs + (plus n held n : Nat)
    rw [plus_self]
    omega
  · exact fun m hm => plus_of_ne hm held

/-- Of two writes to one place with a write to another place between them, the second counts. -/
theorem update_shadow {β : Type} (f : NodeId → β) {a b : NodeId} (x y z : β) (hne : b ≠ a) :
    Function.update (Function.update (Function.update f a x) b y) a z =
      Function.update (Function.update f b y) a z := by
  rw [Function.update_comm hne, Function.update_idem, Function.update_comm (Ne.symm hne)]

/-- Writing one place, then another, then the first one back is writing the other. -/
theorem update_between {β : Type} (f : NodeId → β) {a b : NodeId} (x y : β) (hne : b ≠ a) :
    Function.update (Function.update (Function.update f a x) b y) a (f a) =
      Function.update f b y := by
  rw [Function.update_comm hne, Function.update_idem, Function.update_eq_self]

/-- Locking a node, changing another and unlocking the first is changing the other. -/
theorem put_between {bd nd : FsNode} (hb : s.node base = some bd) (hlock : bd.lock = false)
    (hne : n ≠ base) : ((s.put base (some { bd with lock := true })).put n (some nd)).put base
      (some { bd with lock := false }) = s.put n (some nd) := by
  have hsame : some ({ bd with lock := false } : FsNode) = s.node base := by rw [hb, ← hlock]
  rw [hsame]
  exact congrArg (fun node => { s with node := node }) (update_between s.node _ _ hne)

/-- A node that is in a table is younger than the node of the table. -/
theorem Tree.found (ht : Tree s) {bd : FsNode} (hb : s.node base = some bd) {file : Name}
    (hfind : bd.find file = some n) :
    n ≠ base ∧ ∃ nd, s.node n = some nd ∧ 0 < nd.refs := by
  have hmem : (file, n) ∈ bd.entries := by
    obtain ⟨l₁, l₂, hsplit, -⟩ := List.lookup_eq_some_iff.mp hfind
    rw [hsplit]
    simp
  obtain ⟨nd, hn, hlive, hparent, -⟩ := ht.entry base bd hb (file, n) hmem
  refine ⟨?_, nd, hn, hlive⟩
  rintro rfl
  by_cases hroot : n = fsRoot
  · obtain ⟨rd, hrd, -, hnone⟩ := ht.root
    subst hroot
    obtain rfl : rd = nd := Option.some.inj (hrd.symm.trans hn)
    rw [hnone] at hparent
    cases hparent
  · obtain ⟨p, pd, hp, hlt, -⟩ := ht.bound n nd hn hlive hroot
    obtain rfl : n = p := Option.some.inj (hparent.symm.trans hp)
    exact absurd hlt (Nat.lt_irrefl _)

/-- Putting a new node into a table is quiet. -/
theorem quiet_insert {bd : FsNode} (name : Name) (fs : Fs) (hs : Counted s held)
    (hb : s.node base = some bd) (hlive : 0 < bd.refs) : Quiet s (s.insert base bd name fs) := by
  refine ⟨fun m md hdying => ?_, rfl, rfl⟩
  constructor
  · intro hm
    obtain ⟨rfl, rfl⟩ | ⟨-, cd, hcd, -, -, -, ⟨rfl, rfl, rfl⟩ | ⟨-, rfl⟩⟩ :=
      insert_back hs.toTree hb hm
    · exact absurd Int.zero_lt_one hdying
    · exact absurd (Int.add_pos hlive Int.zero_lt_one) hdying
    · exact hcd
  · intro hm
    obtain ⟨cd, hcd, -, -, -, ⟨rfl, -⟩ | ⟨-, rfl⟩⟩ := insert_forth name fs hs.toTree hb hm
    · obtain rfl : bd = md := Option.some.inj (hb.symm.trans hm)
      exact absurd hlive hdying
    · exact hcd

/-- The first part of `fs_walk_one` where the table has no such name: the block of the new node is
made under the lock of its parent, and the driver is asked. -/
def Vfs.asked (s : Vfs D) (base : NodeId) (bd : FsNode) (file : Name) (driver : D) : Vfs D :=
  { s with
    driver := driver
    node := Function.update (Function.update s.node base (some { bd with lock := true })) s.nextNode
      (some (.fresh base file))
    nextNode := s.nextNode + 1 }

theorem asked_node_base {bd : FsNode} {file : Name} {driver : D} (hne : s.nextNode ≠ base) :
    (s.asked base bd file driver).node base = some { bd with lock := true } := by
  show Function.update (Function.update s.node base _) s.nextNode _ base = _
  rw [Function.update_of_ne (Ne.symm hne), Function.update_self]

/-- The driver knows the name: the new node is put into the table. -/
theorem walk_insert_run {bd : FsNode} {file : Name} {driver : D} {fs : Fs} (hlock : bd.lock = false)
    (hne : s.nextNode ≠ base) (hfs : s.fs = some fs) (hunlocked : fs.lock = false) :
    (do
      changeNode base fun nd => nd.bind file s.nextNode
      unlockNode base
      refFsNode base
      refFs
      return some s.nextNode : VfsCall D (Option NodeId)) (s.asked base bd file driver) =
    .ok (some s.nextNode, { s.insert base bd file fs with driver := driver }) := by
  have hfs' : Vfs.fs (((s.asked base bd file driver).put base
      (some { ({ bd with lock := true } : FsNode).bind file s.nextNode with lock := false })).put base
      (some (bd.parentOf file s.nextNode))) = some fs := hfs
  have hbound : ({ ({ ({ bd with lock := true } : FsNode).bind file s.nextNode with
      lock := false } : FsNode) with refs := bd.refs + 1 } : FsNode) =
        bd.parentOf file s.nextNode := by
    rw [FsNode.parentOf, FsNode.bind, FsNode.bind, ← hlock]
    rfl
  rw [run_bind_of_ok (change_node_run (asked_node_base hne) _),
    run_bind_of_ok (unlock_node_run (Vfs.put_node_self ..)), Vfs.put_put,
    run_bind_of_ok (ref_fs_node_run (Vfs.put_node_self ..) rfl)]
  show (refFs >>= fun _ => pure (some s.nextNode) : VfsCall D (Option NodeId))
    (((s.asked base bd file driver).put base _).put base (some
      { ({ ({ bd with lock := true } : FsNode).bind file s.nextNode with lock := false } : FsNode)
        with refs := bd.refs + 1 })) = _
  rw [hbound, run_bind_of_ok (ref_fs_run hfs' hunlocked), Vfs.put_put]
  refine congrArg (fun node => Except.ok (some s.nextNode, ({ s with
    driver := driver, node := node, nextNode := s.nextNode + 1
    fs := some { fs with refs := fs.refs + 1 } } : Vfs D))) ?_
  exact update_shadow s.node _ _ _ hne

/-- The driver does not know the name: the block is freed. -/
theorem walk_fail_run {bd : FsNode} {file : Name} {driver : D} (hs : Counted s held)
    (hb : s.node base = some bd) (hlock : bd.lock = false) (hne : s.nextNode ≠ base) :
    (do
      putNode s.nextNode none
      unlockNode base
      return none : VfsCall D (Option NodeId)) (s.asked base bd file driver) =
    .ok (none, { s with driver := driver, nextNode := s.nextNode + 1 }) := by
  have hsame : some ({ bd with lock := false } : FsNode) = s.node base := by rw [hb, ← hlock]
  have hlocked : ((s.asked base bd file driver).put s.nextNode none).node base =
      some { bd with lock := true } := by
    rw [Vfs.put_node_of_ne _ (Ne.symm hne), asked_node_base hne]
  show (unlockNode base >>= fun _ => pure none : VfsCall D (Option NodeId))
    ((s.asked base bd file driver).put s.nextNode none) = _
  rw [run_bind_of_ok (unlock_node_run hlocked), hsame]
  refine congrArg (fun node => Except.ok (none, ({ s with
    driver := driver, node := node, nextNode := s.nextNode + 1 } : Vfs D))) ?_
  show Function.update (Function.update (Function.update (Function.update s.node base _) s.nextNode
    _) s.nextNode none) base (s.node base) = s.node
  rw [Function.update_idem, update_between s.node _ _ hne, ← hs.toTree.next_free,
    Function.update_eq_self]

/-- `fs_walk_one` from a node that is held. -/
theorem fs_walk_one_yields (d : Driver D) (file : Name) (hs : Counted s held)
    (hbase : 0 < held base) : Yields (fsWalkOne d base file) s fun found s' =>
      Counted s' (plusFound found held) ∧ Quiet s s' := by
  obtain ⟨bd, hb, hlive⟩ := hs.holds base hbase
  obtain ⟨hlock, -⟩ := hs.exact base bd hb hlive
  unfold fsWalkOne
  refine yields_bind_of_run (lock_node_run hb hlock) ?_
  refine yields_bind_of_run (the_node_run (Vfs.put_node_self ..)) ?_
  cases hfind : bd.find file with
  | some n =>
      obtain ⟨hne, nd, hn, hnlive⟩ := hs.toTree.found hb hfind
      obtain ⟨hnlock, -⟩ := hs.exact n nd hn hnlive
      obtain ⟨_, s', hrun, hs', hquiet⟩ := ref_fs_node_yields hs hn hnlive
      have hn' : (s.put base (some { bd with lock := true })).node n = some nd := by
        rw [Vfs.put_node_of_ne s hne, hn]
      have hfind' : ({ bd with lock := true } : FsNode).find file = some n := hfind
      rw [hfind']
      refine yields_bind_of_run (ref_fs_node_run hn' hnlock) ?_
      have hb' : ((s.put base (some { bd with lock := true })).put n
          (some { nd with refs := nd.refs + 1 })).node base = some { bd with lock := true } := by
        rw [Vfs.put_node_of_ne _ (Ne.symm hne), Vfs.put_node_self]
      refine yields_bind_of_run (unlock_node_run hb') ?_
      refine yields_pure ?_
      rw [ref_fs_node_run hn hnlock] at hrun
      cases hrun
      show Counted (((s.put base _).put n _).put base (some { bd with lock := false })) _ ∧
        Quiet s (((s.put base _).put n _).put base (some { bd with lock := false }))
      rw [put_between hb hlock hne]
      exact ⟨hs', hquiet⟩
  | none =>
      have hne : s.nextNode ≠ base := Nat.ne_of_gt (hs.old base bd hb)
      have hfind' : ({ bd with lock := true } : FsNode).find file = none := hfind
      rw [hfind']
      cases hanswer : d.walk base file s.nextNode s.driver with
      | mk ok driver =>
      have hask : askDriver (d.walk base file s.nextNode) (s.asked base bd file s.driver) =
          .ok (ok, s.asked base bd file driver) := by
        show Except.ok ((d.walk base file s.nextNode s.driver).1,
          s.asked base bd file (d.walk base file s.nextNode s.driver).2) = _
        rw [hanswer]
      obtain ⟨fs, hfs, hunlocked, -⟩ := hs.fsExact
      have hnew : newNode (.fresh base file) (s.put base (some { bd with lock := true })) =
          .ok (s.nextNode, s.asked base bd file s.driver) := rfl
      refine yields_bind_of_run hnew (yields_bind_of_run hask ?_)
      cases ok with
      | true =>
          refine yields_of_run (walk_insert_run hlock hne hfs hunlocked) ⟨?_, ?_⟩
          · exact (hs.insert hb hlive hfind hfs).driver driver
          · obtain ⟨hdying, hhandle, hnext⟩ := quiet_insert file fs hs hb hlive
            exact ⟨hdying, hhandle, hnext⟩
      | false =>
          refine yields_of_run (walk_fail_run hs hb hlock hne) ⟨?_, ?_⟩
          · exact hs.skip.driver driver
          · exact ⟨fun _ _ _ => Iff.rfl, rfl, rfl⟩

theorem plus_comm (n m : NodeId) (held : NodeId → Nat) :
    plus n (plus m held) = plus m (plus n held) := by
  funext k
  simp only [plus]
  omega

theorem plus_found_comm (n : NodeId) (found : Option NodeId) (held : NodeId → Nat) :
    plusFound found (plus n held) = plus n (plusFound found held) := by
  cases found with
  | none => rfl
  | some m => exact plus_comm m n held

theorem plus_self_pos (n : NodeId) (held : NodeId → Nat) : 0 < plus n held n := by
  rw [plus_self]
  exact Nat.succ_pos _

/-- The walk through one item gives up the reference to the node that it starts at. -/
theorem walk_item_yields {α : Type} (d : Driver D) (item : Name) {post : α → Vfs D → Prop}
    {rest : Option NodeId → VfsCall D α} (hs : Counted s (plus n held))
    (hrest : ∀ found s', Counted s' (plusFound found held) → Quiet s s' →
      Yields (rest found) s' post) :
    Yields (do
      let n2 ← fsWalkOne d n item
      unrefFsNode d n
      rest n2) s post := by
  refine (fs_walk_one_yields d item hs (plus_self_pos n held)).bind fun found s₁ h => ?_
  obtain ⟨hs₁, hquiet₁⟩ := h
  rw [plus_found_comm] at hs₁
  refine (unref_fs_node_yields d hs₁).bind fun _ s₂ h => ?_
  obtain ⟨hs₂, hquiet₂⟩ := h
  exact hrest found s₂ hs₂ (hquiet₁.trans hquiet₂)

/-- A walk that fails gives up the reference to the node that it has reached. -/
theorem give_up_yields (d : Driver D) (hs : Counted s (plus n held)) :
    Yields (do unrefFsNode d n; return none) s fun found s' =>
      Counted s' (plusFound found held) ∧ Quiet s s' :=
  (unref_fs_node_yields d hs).bind fun _ _ h => yields_pure h

/-- The loop of `fs_walk_path`. -/
theorem walk_items_yields (d : Driver D) (items : List Name) (hs : Counted s (plus n held)) :
    Yields (walkItems d n items) s fun found s' =>
      Counted s' (plusFound found held) ∧ Quiet s s' := by
  fun_induction walkItems d n items generalizing s with
  | case1 n => exact yields_pure ⟨hs, Quiet.refl s⟩
  | case2 n => exact yields_pure ⟨hs, Quiet.refl s⟩
  | case3 n last _ =>
      exact walk_item_yields d last hs fun found s' hs' hquiet => yields_pure ⟨hs', hquiet⟩
  | case4 => exact give_up_yields d hs
  | case5 => exact give_up_yields d hs
  | case6 n item rest _ _ _ ih =>
      refine walk_item_yields d item hs fun found s₁ hs₁ hquiet₁ => ?_
      cases found with
      | none => exact yields_pure ⟨hs₁, hquiet₁⟩
      | some n2 => exact (ih n2 hs₁).mono fun found s' h => ⟨h.1, hquiet₁.trans h.2⟩

/-- `fs_walk_path` from the root. -/
theorem fs_walk_path_yields (d : Driver D) (path : Name) (hs : Counted s held) :
    Yields (fsWalkPath d fsRoot path) s fun found s' =>
      Counted s' (plusFound found held) ∧ Quiet s s' := by
  obtain ⟨nd, hn, hlive, -⟩ := hs.root
  unfold fsWalkPath
  refine (ref_fs_node_yields hs hn hlive).bind fun _ s₁ h => ?_
  exact (walk_items_yields d _ h.1).mono fun found s' h' => ⟨h'.1, h.2.trans h'.2⟩

/-- A walk that stops before the last item, and fails. -/
theorem give_up_last_yields (d : Driver D) (hs : Counted s (plus n held)) :
    Yields (do unrefFsNode d n; return none) s fun (found : Option (NodeId × Name)) s' =>
      Counted s' (plusFound (found.map Prod.fst) held) ∧ Quiet s s' :=
  (unref_fs_node_yields d hs).bind fun _ _ h => yields_pure h

/-- The loop of `fs_walk_path_except_last`. -/
theorem walk_items_except_last_yields (d : Driver D) (items : List Name)
    (hs : Counted s (plus n held)) : Yields (walkItemsExceptLast d n items) s fun found s' =>
      Counted s' (plusFound (found.map Prod.fst) held) ∧ Quiet s s' := by
  fun_induction walkItemsExceptLast d n items generalizing s with
  | case1 n => exact yields_pure ⟨hs, Quiet.refl s⟩
  | case2 => exact give_up_last_yields d hs
  | case3 => exact yields_pure ⟨hs, Quiet.refl s⟩
  | case4 => exact give_up_last_yields d hs
  | case5 => exact give_up_last_yields d hs
  | case6 => exact yields_pure ⟨hs, Quiet.refl s⟩
  | case7 n item rest _ _ _ _ ih =>
      refine walk_item_yields d item hs fun found s₁ hs₁ hquiet₁ => ?_
      cases found with
      | none => exact yields_pure ⟨hs₁, hquiet₁⟩
      | some n2 => exact (ih n2 hs₁).mono fun found s' h => ⟨h.1, hquiet₁.trans h.2⟩

/-- `fs_walk_path_except_last` from a live node. -/
theorem walk_path_except_last_yields (d : Driver D) (path : Name) (hs : Counted s held)
    {nd : FsNode} (hn : s.node base = some nd) (hlive : 0 < nd.refs) :
    Yields (fsWalkPathExceptLast d base path) s fun found s' =>
      Counted s' (plusFound (found.map Prod.fst) held) ∧ Quiet s s' := by
  unfold fsWalkPathExceptLast
  refine yields_ite (fun _ => yields_pure ⟨hs, Quiet.refl s⟩) fun _ => ?_
  refine (ref_fs_node_yields hs hn hlive).bind fun _ s₁ h => ?_
  exact (walk_items_except_last_yields d _ h.1).mono fun found s' h' => ⟨h'.1, h.2.trans h'.2⟩

/-- `fs_walk_path_except_last` from the root. -/
theorem fs_walk_path_except_last_yields (d : Driver D) (path : Name) (hs : Counted s held) :
    Yields (fsWalkPathExceptLast d fsRoot path) s fun found s' =>
      Counted s' (plusFound (found.map Prod.fst) held) ∧ Quiet s s' := by
  obtain ⟨nd, hn, hlive, -⟩ := hs.root
  exact walk_path_except_last_yields d path hs hn hlive

end Walk

section Calls

variable {n : NodeId}

/-- Locking a held node, asking the driver about it and unlocking it. -/
theorem ask_locked_yields {α β : Type} (question : D → α × D) {post : β → Vfs D → Prop}
    {rest : α → VfsCall D β} (hs : Counted s (plus n held))
    (hrest : ∀ a s', Counted s' (plus n held) → Quiet s s' → Yields (rest a) s' post) :
    Yields (do
      lockNode n
      let a ← askDriver question
      unlockNode n
      rest a) s post := by
  obtain ⟨nd, hn, hlive⟩ := hs.holds n (plus_self_pos n held)
  obtain ⟨hlock, -⟩ := hs.exact n nd hn hlive
  cases hanswer : question s.driver with
  | mk a driver =>
  have hask : askDriver question (s.put n (some { nd with lock := true })) =
      .ok (a, ({ s with driver := driver } : Vfs D).put n (some { nd with lock := true })) := by
    show Except.ok ((question s.driver).1, ({ s with driver := (question s.driver).2 } : Vfs D).put n
      (some { nd with lock := true })) = _
    rw [hanswer]
  refine yields_bind_of_run (lock_node_run hn hlock) (yields_bind_of_run hask ?_)
  refine yields_bind_of_run (unlock_node_run (Vfs.put_node_self ..)) ?_
  have hsame : some ({ nd with lock := false } : FsNode) = s.node n := by rw [hn, ← hlock]
  have hback : ({ s with driver := driver } : Vfs D).put n (s.node n) =
      { s with driver := driver } :=
    congrArg (fun node => ({ s with driver := driver, node := node } : Vfs D))
      (Function.update_eq_self ..)
  rw [Vfs.put_put]
  change Yields _ (({ s with driver := driver } : Vfs D).put n
    (some { nd with lock := false })) _
  rw [hsame, hback]
  exact hrest a _ (hs.driver driver) ⟨fun _ _ _ => Iff.rfl, rfl, rfl⟩

/-- `fs_create`. -/
theorem create_file_yields (d : Driver D) (okModes : UInt32) (file : Name) (type : UInt32)
    (hs : Counted s held) :
    Yields (createFile d okModes fsRoot file type) s fun _ s' => Counted s' held ∧ Quiet s s' := by
  unfold createFile
  refine yields_ite (fun _ => yields_pure ⟨hs, Quiet.refl s⟩) fun _ => ?_
  refine (fs_walk_path_except_last_yields d file hs).bind fun found s₁ h => ?_
  obtain ⟨hs₁, hquiet₁⟩ := h
  cases found with
  | none => exact yields_pure ⟨hs₁, hquiet₁⟩
  | some last =>
      refine ask_locked_yields _ hs₁ fun ret s₂ hs₂ hquiet₂ => ?_
      refine (unref_fs_node_yields d hs₂).bind fun _ s₃ h => ?_
      exact yields_pure ⟨h.1, (hquiet₁.trans hquiet₂).trans h.2⟩

theorem fs_create_yields (d : Driver D) (file : Name) (type : UInt32) (hs : Counted s held) :
    Yields (fsCreate d file type) s fun _ s' => Counted s' held ∧ Quiet s s' := by
  obtain ⟨fs, hfs, -⟩ := hs.fsExact
  exact yields_bind_of_run (the_fs_run hfs) (create_file_yields d fs.okModes file type hs)

/-- `fs_stat`. -/
theorem fs_stat_yields (d : Driver D) (file : Name) (hs : Counted s held) :
    Yields (fsStat d file) s fun _ s' => Counted s' held ∧ Quiet s s' := by
  unfold fsStat statFile
  refine (fs_walk_path_yields d file hs).bind fun found s₁ h => ?_
  obtain ⟨hs₁, hquiet₁⟩ := h
  cases found with
  | none => exact yields_pure ⟨hs₁, hquiet₁⟩
  | some n =>
      refine ask_locked_yields _ hs₁ fun ret s₂ hs₂ hquiet₂ => ?_
      refine (unref_fs_node_yields d hs₂).bind fun _ s₃ h => ?_
      exact yields_pure ⟨h.1, (hquiet₁.trans hquiet₂).trans h.2⟩

/-- The first part of `fs_open`. -/
theorem node_to_open_yields (d : Driver D) (okModes : UInt32) (file : Name) (mode : UInt32)
    (hs : Counted s held) : Yields (nodeToOpen d okModes fsRoot file mode) s fun found s' =>
      Counted s' (plusFound found held) ∧ Quiet s s' := by
  unfold nodeToOpen
  refine (fs_walk_path_yields d file hs).bind fun found s₁ h => ?_
  obtain ⟨hs₁, hquiet₁⟩ := h
  cases found with
  | some n => exact yields_pure ⟨hs₁, hquiet₁⟩
  | none =>
      refine yields_ite (fun _ => ?_) fun _ => yields_pure ⟨hs₁, hquiet₁⟩
      refine (create_file_yields d okModes file ftRegular hs₁).bind fun created s₂ h => ?_
      obtain ⟨hs₂, hquiet₂⟩ := h
      refine yields_ite (fun _ => ?_) fun _ => yields_pure ⟨hs₂, hquiet₁.trans hquiet₂⟩
      exact (fs_walk_path_yields d file hs₂).mono fun found s' h =>
        ⟨h.1, (hquiet₁.trans hquiet₂).trans h.2⟩

/-- Nothing that is in memory is on its way out. -/
structure Settled (s : Vfs D) : Prop where
  nodes : ∀ n nd, s.node n = some nd → 0 < nd.refs
  handles : ∀ h file, s.handle h = some file → 0 < file.refs

theorem Quiet.settled (h : Quiet s s') (hs : Settled s) : Settled s' where
  nodes := fun n nd hn => by
    by_contra hdying
    exact hdying (hs.nodes n nd ((h.dying n nd hdying).mp hn))
  handles := by
    rw [h.handle]
    exact hs.handles

/-- A state whose handles other than `h` are as before, and `h` live or gone, is settled. -/
theorem Settled.of_handle {h : HandleId} {file' : Option OpenFile} (hs : Settled s)
    (hnodes : ∀ n nd, s'.node n = some nd → 0 < nd.refs)
    (hhandle : s'.handle = Function.update s.handle h file')
    (hlive : ∀ file, file' = some file → 0 < file.refs) : Settled s' where
  nodes := hnodes
  handles := fun f file hf => by
    rw [hhandle] at hf
    by_cases hfh : f = h
    · rw [hfh, Function.update_self] at hf
      exact hlive file hf
    · rw [Function.update_of_ne hfh] at hf
      exact hs.handles f file hf

/-- The references of a handle; there are none when it has been freed. -/
def Vfs.refsOf (s : Vfs D) (h : HandleId) : Int :=
  ((s.handle h).map OpenFile.refs).getD 0

/-- The references of the handles that there were change by `change`. -/
structure Referred (change : HandleId → Int) (s s' : Vfs D) : Prop where
  next : s.nextHandle ≤ s'.nextHandle
  refs : ∀ h < s.nextHandle, s'.refsOf h = s.refsOf h + change h

theorem Quiet.referred (h : Quiet s s') : Referred (fun _ => 0) s s' where
  next := h.nextHandle.ge
  refs := fun f _ => by
    rw [Vfs.refsOf, h.handle, Int.add_zero]
    rfl

theorem referred_of_handle {h : HandleId} {file' : Option OpenFile} {k : Int}
    (hnext : s.nextHandle ≤ s'.nextHandle) (hhandle : s'.handle = Function.update s.handle h file')
    (hk : (file'.map OpenFile.refs).getD 0 = s.refsOf h + k) :
    Referred (fun f => if h = f then k else 0) s s' := by
  refine ⟨hnext, fun f _ => ?_⟩
  rw [Vfs.refsOf, hhandle]
  split
  · next heq =>
    rw [← heq, Function.update_self, hk]
  · next hne =>
    rw [Function.update_of_ne (Ne.symm hne), Int.add_zero]
    rfl

/-- The second part of `fs_open`: the reference to the node goes to the new handle, or is given
up. -/
theorem open_found_yields (d : Driver D) (mode : UInt32) (hs : Counted s (plus n held)) :
    Yields (openFound d n mode) s fun opened s' =>
      opened = none ∧ Counted s' held ∧ Quiet s s' ∨
        opened = some s.nextHandle ∧ ∃ driver, s' = { s with
          driver := driver
          handle := Function.update s.handle s.nextHandle
            (some { refs := 1, lock := false, node := n, mode := mode })
          nextHandle := s.nextHandle + 1 } := by
  obtain ⟨nd, hn, hlive⟩ := hs.holds n (plus_self_pos n held)
  obtain ⟨hlock, -⟩ := hs.exact n nd hn hlive
  have hback : ∀ t : Vfs D, t.node = s.node →
      unlockNode n (t.put n (some { nd with lock := true })) = .ok ((), t) := by
    intro t ht
    have hsame : some ({ nd with lock := false } : FsNode) = t.node n := by rw [ht, hn, ← hlock]
    rw [unlock_node_run (Vfs.put_node_self ..), Vfs.put_put, hsame]
    exact congrArg (fun node => Except.ok ((), { t with node := node }))
      (Function.update_eq_self ..)
  refine yields_bind_of_run (lock_node_run hn hlock) ?_
  cases hanswer : d.openNode n mode s.driver with
  | mk ok driver =>
  have hask : askDriver (d.openNode n mode) (s.put n (some { nd with lock := true })) =
      .ok (ok, ({ s with driver := driver } : Vfs D).put n (some { nd with lock := true })) := by
    show Except.ok ((d.openNode n mode s.driver).1,
      ({ s with driver := (d.openNode n mode s.driver).2 } : Vfs D).put n
        (some { nd with lock := true })) = _
    rw [hanswer]
  refine yields_bind_of_run hask ?_
  cases ok with
  | true =>
      exact yields_bind_of_run rfl (yields_bind_of_run (hback { s with
        driver := driver
        handle := Function.update s.handle s.nextHandle
          (some { refs := 1, lock := false, node := n, mode := mode })
        nextHandle := s.nextHandle + 1 } rfl) (yields_pure (.inr ⟨rfl, driver, rfl⟩)))
  | false =>
      refine yields_bind_of_run (hback { s with driver := driver } rfl) ?_
      refine (unref_fs_node_yields d (hs.driver driver)).bind fun _ _ h => ?_
      obtain ⟨hs', hdying, hhandle, hnext⟩ := h
      exact yields_pure (.inl ⟨rfl, hs', hdying, hhandle, hnext⟩)

/-- `fs_open`. -/
theorem fs_open_yields (d : Driver D) (file : Name) (mode : UInt32) (hs : Counted s held) :
    Yields (fsOpen d file mode) s fun _ s' =>
      Counted s' held ∧ (Settled s → Settled s') ∧ Referred (fun _ => 0) s s' := by
  obtain ⟨fs, hfs, -⟩ := hs.fsExact
  unfold fsOpen
  refine yields_bind_of_run (the_fs_run hfs) ?_
  refine yields_ite (fun _ => yields_pure ⟨hs, id, (Quiet.refl s).referred⟩) fun _ => ?_
  refine (node_to_open_yields d fs.okModes file mode hs).bind fun found s₁ h => ?_
  obtain ⟨hs₁, hquiet₁⟩ := h
  cases found with
  | none => exact yields_pure ⟨hs₁, hquiet₁.settled, hquiet₁.referred⟩
  | some n =>
      refine (open_found_yields d _ hs₁).bind fun opened s₂ h => ?_
      rcases h with ⟨rfl, hs₂, hquiet₂⟩ | ⟨rfl, driver, rfl⟩
      · have hquiet := hquiet₁.trans hquiet₂
        exact yields_pure ⟨hs₂, hquiet.settled, hquiet.referred⟩
      · have hdriver := hs₁.driver driver
        obtain ⟨fs₁, hfs₁, hunlocked, -⟩ := hdriver.fsExact
        refine yields_bind_of_run (ref_fs_run hfs₁ hunlocked) (yields_pure
          ⟨hdriver.openFile hfs₁ _, fun hsettled => ?_, hquiet₁.referred.next.trans
            (Nat.le_succ _), fun f hf => ?_⟩)
        · have hsettled₁ := hquiet₁.settled hsettled
          refine hsettled₁.of_handle hsettled₁.nodes (by rfl) ?_
          rintro _ ⟨⟩
          exact Int.zero_lt_one
        · rw [← hquiet₁.referred.refs f hf]
          have hne : f ≠ s₁.nextHandle := Nat.ne_of_lt (hquiet₁.nextHandle ▸ hf)
          exact congrArg (fun file => (Option.map OpenFile.refs file).getD 0)
            (Function.update_of_ne hne ..)

section Handles

variable {h : HandleId} {file : OpenFile}

theorem the_file_run (hf : s.handle h = some file) : theFile h s = .ok (file, s) := by
  rw [theFile, run_get_bind, hf]
  rfl

theorem lock_file_run (hf : s.handle h = some file) (hlock : file.lock = false) :
    lockFile h s = .ok ((), s.putFile h (some { file with lock := true })) := by
  unfold lockFile
  rw [run_bind_of_ok (the_file_run hf), hlock]
  rfl

theorem unlock_file_run (hf : s.handle h = some file) :
    unlockFile h s = .ok ((), s.putFile h (some { file with lock := false })) := by
  unfold unlockFile
  rw [run_bind_of_ok (the_file_run hf)]
  rfl

@[simp] theorem Vfs.put_file_put_file (s : Vfs D) (h : HandleId) (file file' : Option OpenFile) :
    (s.putFile h file).putFile h file' = s.putFile h file' := by
  simp [Vfs.putFile]

/-- `ref_file` of a live handle. -/
theorem ref_file_yields (hs : Counted s held) (hf : s.handle h = some file)
    (hlive : 0 < file.refs) :
    Yields (refFile h) s fun _ s' => Counted s' held ∧ (Settled s → Settled s') ∧
      Referred (fun f => if h = f then 1 else 0) s s' := by
  obtain ⟨-, hfile⟩ := hs.files h file hf
  obtain ⟨hlock, -⟩ := hfile hlive
  have hlive' : 0 < file.refs + 1 := by omega
  have hrun : refFile h s = .ok ((), s.putFile h (some { file with refs := file.refs + 1 })) := by
    unfold refFile
    rw [run_bind_of_ok (lock_file_run hf hlock), run_bind_of_ok (the_file_run (Vfs.put_file_self ..))]
    show unlockFile h ((s.putFile h _).putFile h
      (some { file with refs := file.refs + 1, lock := true })) = _
    rw [unlock_file_run (Vfs.put_file_self ..), Vfs.put_file_put_file, Vfs.put_file_put_file, ← hlock]
  refine yields_of_run hrun ⟨hs.put_file hf hlive hlive', fun hsettled => ?_,
    referred_of_handle (Nat.le_refl _) rfl (by rw [Vfs.refsOf, hf]; rfl)⟩
  refine hsettled.of_handle hsettled.nodes (by rfl) ?_
  rintro _ ⟨⟩
  exact hlive'

/-- `unref_file` of a live handle. -/
theorem unref_file_yields (d : Driver D) (hs : Counted s held) (hf : s.handle h = some file)
    (hlive : 0 < file.refs) :
    Yields (unrefFile d h) s fun _ s' => Counted s' held ∧ (Settled s → Settled s') ∧
      Referred (fun f => if h = f then -1 else 0) s s' := by
  obtain ⟨-, hfile⟩ := hs.files h file hf
  obtain ⟨hlock, -⟩ := hfile hlive
  unfold unrefFile
  refine yields_bind_of_run (lock_file_run hf hlock) ?_
  refine yields_bind_of_run (the_file_run (Vfs.put_file_self ..)) ?_
  show Yields (if file.refs - 1 = 0 then _ else unlockFile h) ((s.putFile h _).putFile h
    (some { file with refs := file.refs - 1, lock := true })) _
  rw [Vfs.put_file_put_file]
  refine yields_ite (fun hzero => ?_) fun hpos => ?_
  · rw [hzero]
    obtain ⟨_, s₁, hrun, hs₁, hquiet₁⟩ :=
      unref_fs_node_yields d ((hs.closeFile hf hlive).driver (d.close h s.driver))
    have hf₁ : s₁.handle h = some { file with refs := 0, lock := true } := by
      rw [hquiet₁.handle]
      exact Vfs.put_file_self ..
    obtain ⟨fs, hfs, hunlocked, htotal⟩ := hs₁.fsExact
    have hheld : 0 < s₁.handleTotal := by
      rw [Vfs.handleTotal, Nat.pos_iff_ne_zero, Ne, Nat.count_iff_forall_not]
      intro hnone
      exact hnone h (hs₁.files h _ hf₁).1 (by rw [Vfs.Held, hf₁]; rfl)
    have hclose : tellDriver (d.close h) (s.putFile h (some { file with refs := 0, lock := true })) =
        .ok ((), { s.putFile h (some { file with refs := 0, lock := true }) with
          driver := d.close h s.driver }) := rfl
    refine yields_bind_of_run hclose (yields_bind_of_run hrun ?_)
    refine yields_bind_of_run (unref_fs_run d hfs hunlocked (by omega)) ?_
    have hhandle : ({ s₁.putFile h none with fs := some { fs with refs := fs.refs - 1 } } :
        Vfs D).handle = Function.update s.handle h none := by
      show Function.update s₁.handle h none = _
      rw [hquiet₁.handle]
      exact Function.update_idem ..
    refine ⟨(), { s₁.putFile h none with fs := some { fs with refs := fs.refs - 1 } }, rfl, ?_,
      fun hsettled => ?_, referred_of_handle hquiet₁.nextHandle.ge hhandle ?_⟩
    · exact hs₁.freeFile hf₁ (by simp) hfs
    · have hnodes : ∀ n nd, s₁.node n = some nd → 0 < nd.refs := by
        intro n nd hn
        by_contra hdying
        exact hdying (hsettled.nodes n nd ((hquiet₁.dying n nd hdying).mp hn))
      exact hsettled.of_handle hnodes hhandle (by simp)
    · rw [Vfs.refsOf, hf]
      exact hzero.symm
  · have hrefs : 0 < file.refs - 1 := by omega
    refine yields_of_run (unlock_file_run (Vfs.put_file_self ..)) ?_
    rw [Vfs.put_file_put_file, ← hlock]
    refine ⟨hs.put_file hf hlive hrefs, fun hsettled => ?_,
      referred_of_handle (Nat.le_refl _) rfl (by rw [Vfs.refsOf, hf]; rfl)⟩
    refine hsettled.of_handle hsettled.nodes (by rfl) ?_
    rintro _ ⟨⟩
    exact hrefs

end Handles

end Calls

end Kogata.Kernel
