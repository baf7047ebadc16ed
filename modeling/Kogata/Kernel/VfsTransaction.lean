import Kogata.Kernel.VfsStable

/-!
# Moving is a transaction only where it fails

What `fs_move` does behind its two walks, in each of its cases. Where the driver agrees to move a
node in memory, the references of the two directories stay as they were; where it refuses and the
new name was bound, the binding is lost; and where the node is not in memory, the driver gets the
`data` of the directory.
-/

namespace Kogata.Kernel

open Lib.Effect Lib.Tally

variable {D : Type}

/-- The node with its mutex taken. -/
def FsNode.locked (nd : FsNode) : FsNode :=
  { nd with lock := true }

section Runs

variable {s t u : Vfs D} {op np c : NodeId} {od pd cd : FsNode} {on nn : Name} {ret : Bool}
  {mem : MoveMemory} {d : MoveDriver D}

/-- The state in which `fs_move` has locked the two directories. -/
def Vfs.lockTwo (s : Vfs D) (op np : NodeId) (od pd : FsNode) : Vfs D :=
  (s.put op (some od.locked)).put np (some pd.locked)

/-- Writing the block that is there changes nothing. -/
theorem put_same (s : Vfs D) {n : NodeId} {nd : FsNode} (hn : s.node n = some nd) :
    s.put n (some nd) = s := by
  rw [Vfs.put, ← hn, Function.update_eq_self]

theorem put_comm (s : Vfs D) {n m : NodeId} (hne : n ≠ m) (nd md : Option FsNode) :
    (s.put n nd).put m md = (s.put m md).put n nd := by
  simp only [Vfs.put]
  rw [Function.update_comm hne]

theorem lock_two_op (hne : op ≠ np) : (s.lockTwo op np od pd).node op = some od.locked := by
  rw [Vfs.lockTwo, Vfs.put_node_of_ne _ hne, Vfs.put_node_self]

theorem lock_two_np : (s.lockTwo op np od pd).node np = some pd.locked :=
  Vfs.put_node_self ..

theorem unlock_two_run (hop : s.node op = some od) (hnp : s.node np = some pd) (hne : op ≠ np) :
    (do unlockNode op; unlockNode np; return ret : VfsCall D Bool) s =
      .ok (ret, (s.put op (some { od with lock := false })).put np
        (some { pd with lock := false })) := by
  have hnp' : (s.put op (some { od with lock := false })).node np = some pd := by
    rw [Vfs.put_node_of_ne s (Ne.symm hne), hnp]
  rw [run_bind_of_ok (unlock_node_run hop), run_bind_of_ok (unlock_node_run hnp')]
  rfl

section

variable (hop : s.node op = some od) (hnp : s.node np = some pd) (hne : op ≠ np)
  (holock : od.lock = false) (hplock : pd.lock = false)

include hop hnp hne holock hplock

theorem lock_two_run (rest : VfsCall D Bool) :
    (do lockNode op; lockNode np; rest : VfsCall D Bool) s = rest (s.lockTwo op np od pd) := by
  have hnp' : (s.put op (some od.locked)).node np = some pd := by
    rw [Vfs.put_node_of_ne s (Ne.symm hne), hnp]
  rw [run_bind_of_ok (lock_node_run hop holock)]
  exact run_bind_of_ok (lock_node_run hnp' hplock)

/-- The locks are released, and everything is as before. -/
theorem unlock_lock_two :
    ((s.lockTwo op np od pd).put op (some { od.locked with lock := false })).put np
      (some { pd.locked with lock := false }) = s := by
  have hod : ({ od.locked with lock := false } : FsNode) = od := by rw [← holock]; rfl
  have hpd : ({ pd.locked with lock := false } : FsNode) = pd := by rw [← hplock]; rfl
  rw [hod, hpd, Vfs.lockTwo, put_comm _ (Ne.symm hne), Vfs.put_put, Vfs.put_put, put_same _ hop,
    put_same _ hnp]

/-- Where the node is not in memory, the driver is asked with `old_parent->data`. -/
theorem move_locked_data (hfind : od.find on = none) {x : D}
    (hmove : d.move { source := .data op, oldName := on, newParent := np, newName := nn } s.driver =
      (ret, x)) :
    moveLocked d mem op on np nn s = .ok (ret, { s with driver := x }) := by
  unfold moveLocked
  rw [lock_two_run hop hnp hne holock hplock, run_bind_of_ok (the_node_run (lock_two_op hne))]
  have hfind' : od.locked.find on = none := hfind
  rw [hfind']
  have hask : askDriver (d.move { source := .data op, oldName := on, newParent := np
                                  newName := nn }) (s.lockTwo op np od pd) =
      .ok (ret, ({ s with driver := x } : Vfs D).lockTwo op np od pd) := by
    change Except.ok ((d.move _ s.driver).1, ({ s with driver := (d.move _ s.driver).2 } :
      Vfs D).lockTwo op np od pd) = _
    rw [hmove]
  rw [run_bind_of_ok hask, unlock_two_run (lock_two_op hne) lock_two_np hne]
  exact congrArg (fun u => Except.ok (ret, u))
    (unlock_lock_two (s := { s with driver := x }) hop hnp hne holock hplock)

/-- A directory cannot be moved into itself: its mutex is taken already. -/
theorem move_locked_self (hfind : od.find on = some np) :
    moveLocked d mem op on np nn s = .error .deadlock := by
  unfold moveLocked
  rw [lock_two_run hop hnp hne holock hplock, run_bind_of_ok (the_node_run (lock_two_op hne))]
  have hfind' : od.locked.find on = some np := hfind
  rw [hfind']
  have hlock : lockNode np (s.lockTwo op np od pd) = .error .deadlock := by
    unfold lockNode
    rw [run_bind_of_ok (the_node_run lock_two_np)]
    rfl
  refine run_bind_of_error ?_
  exact run_bind_of_error hlock

end

/-- The state with the blocks of three nodes written. -/
def Vfs.putThree (s : Vfs D) (op np c : NodeId) (od pd cd : FsNode) : Vfs D :=
  ((s.put op (some od)).put np (some pd)).put c (some cd)

section Three

variable {od' pd' cd' : FsNode}

theorem put_three_op (hne : op ≠ np) (hco : c ≠ op) :
    (s.putThree op np c od pd cd).node op = some od := by
  rw [Vfs.putThree, Vfs.put_node_of_ne _ (Ne.symm hco), Vfs.put_node_of_ne _ hne,
    Vfs.put_node_self]

theorem put_three_np (hcp : c ≠ np) : (s.putThree op np c od pd cd).node np = some pd := by
  rw [Vfs.putThree, Vfs.put_node_of_ne _ (Ne.symm hcp), Vfs.put_node_self]

theorem put_three_c : (s.putThree op np c od pd cd).node c = some cd :=
  Vfs.put_node_self ..

theorem put_three_put_op (hne : op ≠ np) (hco : c ≠ op) :
    (s.putThree op np c od pd cd).put op (some od') = s.putThree op np c od' pd cd := by
  rw [Vfs.putThree, put_comm _ hco, put_comm _ (Ne.symm hne), Vfs.put_put]
  rfl

theorem put_three_put_np (hcp : c ≠ np) :
    (s.putThree op np c od pd cd).put np (some pd') = s.putThree op np c od pd' cd := by
  rw [Vfs.putThree, put_comm _ hcp, Vfs.put_put]
  rfl

theorem put_three_put_c :
    (s.putThree op np c od pd cd).put c (some cd') = s.putThree op np c od pd cd' :=
  Vfs.put_put ..

theorem put_three_same (hop : s.node op = some od) (hnp : s.node np = some pd)
    (hc : s.node c = some cd) : s.putThree op np c od pd cd = s := by
  rw [Vfs.putThree, put_same s hop, put_same s hnp, put_same s hc]

end Three

/-- The two directories and a child of the first, as the locks of `fs_move` find them. -/
structure Between (s : Vfs D) (op np c : NodeId) (od pd cd : FsNode) (on : Name) : Prop where
  opNode : s.node op = some od
  npNode : s.node np = some pd
  cNode : s.node c = some cd
  ne : op ≠ np
  neOp : c ≠ op
  neNp : c ≠ np
  opLock : od.lock = false
  npLock : pd.lock = false
  cLock : cd.lock = false
  find : od.find on = some c

section

variable (h : Between s op np c od pd cd on)

include h

theorem Between.child_below_locks : (s.lockTwo op np od pd).node c = some cd := by
  rw [Vfs.lockTwo, Vfs.put_node_of_ne _ h.neNp, Vfs.put_node_of_ne _ h.neOp, h.cNode]

/-- What `fs_move` does between the locks of three nodes, whose blocks it may change. -/
theorem move_locked_node {od' pd' cd' : FsNode}
    (hmove : moveNode d mem op on np nn c
      (s.putThree op np c od.locked pd.locked cd.locked) =
        .ok (ret, u.putThree op np c od'.locked pd'.locked cd'.locked))
    (holock' : od'.lock = false) (hplock' : pd'.lock = false) (hclock' : cd'.lock = false) :
    moveLocked d mem op on np nn s = .ok (ret, u.putThree op np c od' pd' cd') := by
  have hunlock : ∀ nd : FsNode, nd.lock = false → ({ nd.locked with lock := false } : FsNode) = nd :=
    fun nd h => by rw [← h]; rfl
  unfold moveLocked
  rw [lock_two_run h.opNode h.npNode h.ne h.opLock h.npLock,
    run_bind_of_ok (the_node_run (lock_two_op h.ne))]
  have hfind' : od.locked.find on = some c := h.find
  rw [hfind']
  have hnode : (do
      lockNode c
      let ret ← moveNode d mem op on np nn c
      unlockNode c
      return ret : VfsCall D Bool) (s.lockTwo op np od pd) =
      .ok (ret, u.putThree op np c od'.locked pd'.locked cd') := by
    rw [run_bind_of_ok (lock_node_run h.child_below_locks h.cLock)]
    refine (run_bind_of_ok hmove).trans ?_
    rw [run_bind_of_ok (unlock_node_run put_three_c), put_three_put_c, hunlock cd' hclock']
    rfl
  rw [run_bind_of_ok hnode, unlock_two_run (put_three_op h.ne h.neOp) (put_three_np h.neNp) h.ne,
    put_three_put_op h.ne h.neOp, put_three_put_np h.neNp, hunlock od' holock', hunlock pd' hplock']

/-- Where the work between the locks stops, so does the call. -/
theorem move_locked_stops {halt : Halt}
    (hmove : moveNode d mem op on np nn c
      (s.putThree op np c od.locked pd.locked cd.locked) = .error halt) :
    moveLocked d mem op on np nn s = .error halt := by
  unfold moveLocked
  rw [lock_two_run h.opNode h.npNode h.ne h.opLock h.npLock,
    run_bind_of_ok (the_node_run (lock_two_op h.ne))]
  have hfind' : od.locked.find on = some c := h.find
  rw [hfind']
  refine run_bind_of_error ?_
  show (do
    lockNode c
    let ret ← moveNode d mem op on np nn c
    unlockNode c
    return ret : VfsCall D Bool) (s.lockTwo op np od pd) = _
  rw [run_bind_of_ok (lock_node_run h.child_below_locks h.cLock)]
  exact run_bind_of_error hmove

end

section Node

variable {entries : List (Name × NodeId)}

theorem move_node_no_memory (h : mem.strdup = false ∨ mem.item = false) :
    moveNode d mem op on np nn c s = .ok (false, s) := by
  unfold moveNode
  cases hdup : mem.strdup with
  | false => rfl
  | true =>
      have hitem := h.resolve_left fun hno => by rw [hdup] at hno; cases hno
      have hadd : addChild np nn c mem.item s = .ok (false, s) := by
        rw [addChild, hitem]
        rfl
      exact run_bind_of_ok hadd

/-- `hashtbl_add` on a table that has not been made. -/
theorem move_node_no_table (hdup : mem.strdup = true) (hitem : mem.item = true)
    (hnp : s.node np = some pd) (htable : pd.children = none) :
    moveNode d mem op on np nn c s = .error .wild := by
  unfold moveNode
  rw [hdup]
  refine run_bind_of_error ?_
  rw [addChild, hitem]
  show (theNode np >>= _) s = _
  rw [run_bind_of_ok (the_node_run hnp), htable]
  rfl

/-- There is memory for the new binding, and what the driver answers. -/
structure MoveAnswer (d : MoveDriver D) (mem : MoveMemory) (op : NodeId) (on : Name) (np : NodeId)
    (nn : Name) (driver : D) (ret : Bool) (x : D) : Prop where
  strdup : mem.strdup = true
  item : mem.item = true
  move : d.move { source := .node op, oldName := on, newParent := np, newName := nn } driver =
    (ret, x)

variable {x : D}

/-- The new binding, as the driver sees it. -/
theorem move_node_asks (h : MoveAnswer d mem op on np nn s.driver ret x)
    (hnp : s.node np = some pd) (htable : pd.children = some entries) :
    moveNode d mem op on np nn c s = (do
      if ret then
        removeChild op on
        changeNode c fun nd => { nd with name := nn, parent := some np }
      else removeChild np nn
      return ret : VfsCall D Bool) (({ s with driver := x } : Vfs D).put np
        (some (pd.bind nn c))) := by
  unfold moveNode
  rw [h.strdup]
  have hadd : addChild np nn c mem.item s = .ok (true, s.put np (some (pd.bind nn c))) := by
    rw [addChild, h.item]
    show (theNode np >>= _) s = _
    rw [run_bind_of_ok (the_node_run hnp), htable]
    rfl
  have hask : askDriver (d.move { source := .node op, oldName := on, newParent := np
                                  newName := nn }) (s.put np (some (pd.bind nn c))) =
      .ok (ret, ({ s with driver := x } : Vfs D).put np (some (pd.bind nn c))) := by
    change Except.ok ((d.move _ s.driver).1, ({ s with driver := (d.move _ s.driver).2 } :
      Vfs D).put np (some (pd.bind nn c))) = _
    rw [h.move]
  refine (run_bind_of_ok hadd).trans ?_
  exact run_bind_of_ok hask

/-- The table without the new name. -/
def FsNode.without (nd : FsNode) (name : Name) : FsNode :=
  { nd with children := some (nd.entries.filter fun e => e.1 != name) }

theorem bind_without (nd : FsNode) (name : Name) (c : NodeId) :
    (nd.bind name c).without name = nd.without name := by
  simp [FsNode.without, FsNode.bind, FsNode.entries]

theorem without_of_unbound (htable : pd.children = some entries) (hfind : pd.find nn = none) :
    pd.without nn = pd := by
  have hentries : pd.entries = entries := by rw [FsNode.entries, htable]; rfl
  have hkeep : pd.entries.filter (fun e => e.1 != nn) = pd.entries := by
    refine List.filter_eq_self.mpr fun e he => ?_
    rw [FsNode.find, List.lookup_eq_none_iff] at hfind
    have hne := hfind e he
    rw [bne_iff_ne]
    exact fun heq => by simp [heq] at hne
  rw [FsNode.without, hkeep, hentries, ← htable]

/-- The driver refuses, and the new name is taken out again. -/
theorem move_node_refused (h : MoveAnswer d mem op on np nn s.driver false x)
    (hnp : s.node np = some pd) (htable : pd.children = some entries) :
    moveNode d mem op on np nn c s =
      .ok (false, ({ s with driver := x } : Vfs D).put np (some (pd.without nn))) := by
  rw [move_node_asks h hnp htable]
  show (removeChild np nn >>= fun _ => pure false) _ = _
  rw [run_bind_of_ok (remove_child_run (Vfs.put_node_self ..) rfl)]
  show Except.ok (false, (({ s with driver := x } : Vfs D).put np (some (pd.bind nn c))).put np
    (some ((pd.bind nn c).without nn))) = _
  rw [Vfs.put_put, bind_without]

/-- The driver agrees: the old name is taken out, and the node gets its new name and parent. -/
theorem move_node_agreed (h : MoveAnswer d mem op on np nn s.driver true x)
    (hop : s.node op = some od) (hnp : s.node np = some pd) (hc : s.node c = some cd)
    (hne : op ≠ np) (hco : c ≠ op) (hcp : c ≠ np)
    {oldEntries : List (Name × NodeId)} (hold : od.children = some oldEntries)
    (htable : pd.children = some entries) :
    moveNode d mem op on np nn c s = .ok (true, ({ s with driver := x } : Vfs D).putThree op np c
      (od.without on) (pd.bind nn c) { cd with name := nn, parent := some np }) := by
  rw [move_node_asks h hnp htable]
  show (do
    removeChild op on
    changeNode c fun nd => { nd with name := nn, parent := some np }
    pure true : VfsCall D Bool) _ = _
  have hop' : (({ s with driver := x } : Vfs D).put np (some (pd.bind nn c))).node op = some od := by
    rw [Vfs.put_node_of_ne _ hne]
    exact hop
  have hc' : ((({ s with driver := x } : Vfs D).put np (some (pd.bind nn c))).put op
      (some (od.without on))).node c = some cd := by
    rw [Vfs.put_node_of_ne _ hco, Vfs.put_node_of_ne _ hcp]
    exact hc
  have hremove : removeChild op on (({ s with driver := x } : Vfs D).put np
      (some (pd.bind nn c))) = .ok ((), (({ s with driver := x } : Vfs D).put np
        (some (pd.bind nn c))).put op (some (od.without on))) := remove_child_run hop' hold
  rw [run_bind_of_ok hremove, run_bind_of_ok (change_node_run hc' _), put_comm _ (Ne.symm hne)]
  rfl

end Node

theorem put_three_put_three {od' pd' cd' : FsNode} (hne : op ≠ np) (hco : c ≠ op) (hcp : c ≠ np) :
    (s.putThree op np c od pd cd).putThree op np c od' pd' cd' =
      s.putThree op np c od' pd' cd' := by
  have hthree : (s.putThree op np c od pd cd).putThree op np c od' pd' cd' =
      (((s.putThree op np c od pd cd).put op (some od')).put np (some pd')).put c (some cd') := rfl
  rw [hthree, put_three_put_op hne hco, put_three_put_np hcp, put_three_put_c]

variable (h : Between s op np c od pd cd on)

include h

theorem move_locked_no_memory (hmem : mem.strdup = false ∨ mem.item = false) :
    moveLocked d mem op on np nn s = .ok (false, s) := by
  rw [move_locked_node h (move_node_no_memory hmem) h.opLock h.npLock h.cLock,
    put_three_same h.opNode h.npNode h.cNode]

theorem move_locked_no_table (hdup : mem.strdup = true) (hitem : mem.item = true)
    (htable : pd.children = none) : moveLocked d mem op on np nn s = .error .wild :=
  move_locked_stops h (move_node_no_table hdup hitem (put_three_np h.neNp) htable)

theorem move_locked_refused {entries : List (Name × NodeId)} {x : D}
    (hanswer : MoveAnswer d mem op on np nn s.driver false x)
    (htable : pd.children = some entries) :
    moveLocked d mem op on np nn s =
      .ok (false, ({ s with driver := x } : Vfs D).putThree op np c od (pd.without nn) cd) := by
  refine move_locked_node h ?_ h.opLock h.npLock h.cLock
  rw [move_node_refused (s := s.putThree op np c od.locked pd.locked cd.locked) hanswer
    (put_three_np h.neNp) htable]
  exact congrArg (fun u => Except.ok (false, u))
    (put_three_put_np (s := { s with driver := x }) h.neNp)

theorem move_locked_agreed {oldEntries entries : List (Name × NodeId)} {x : D}
    (hanswer : MoveAnswer d mem op on np nn s.driver true x)
    (hold : od.children = some oldEntries) (htable : pd.children = some entries) :
    moveLocked d mem op on np nn s = .ok (true, ({ s with driver := x } : Vfs D).putThree op np c
      (od.without on) (pd.bind nn c) { cd with name := nn, parent := some np }) := by
  refine move_locked_node h ?_ h.opLock h.npLock h.cLock
  rw [move_node_agreed (s := s.putThree op np c od.locked pd.locked cd.locked) hanswer
    (put_three_op h.ne h.neOp) (put_three_np h.neNp) put_three_c h.ne h.neOp h.neNp hold htable]
  exact congrArg (fun u => Except.ok (true, u))
    (put_three_put_three (s := { s with driver := x }) h.ne h.neOp h.neNp)

end Runs

section Unref

variable {s s' : Vfs D} {n : NodeId} {nd : FsNode} (d : Driver D)

/-- A reference that is not the last one. -/
theorem unref_run (hn : s.node n = some nd) (hlock : nd.lock = false) (hrefs : nd.refs ≠ 1) :
    unrefFsNode d n s = .ok ((), s.put n (some { nd with refs := nd.refs - 1 })) := by
  rw [unref_fs_node_eq, unrefUpTo, run_bind_of_ok (lock_node_run hn hlock),
    run_bind_of_ok (change_node_run (Vfs.put_node_self ..) _),
    run_bind_of_ok (the_node_run (Vfs.put_node_self ..)), run_ite, if_neg ?_]
  · rw [unlock_node_run (Vfs.put_node_self ..), Vfs.put_put, Vfs.put_put, ← hlock]
  · show ¬ nd.refs - 1 = 0
    omega

/-- A node whose mutex is taken stays as it is. -/
def Stays (n : NodeId) (s s' : Vfs D) : Prop :=
  ∀ nd, s.node n = some nd → nd.lock = true → s'.node n = some nd

instance : Std.Refl (Stays (D := D) n) :=
  ⟨fun _ _ hn _ => hn⟩

instance : IsTrans (Vfs D) (Stays n) :=
  ⟨fun _ _ _ h h' nd hn hlock => h' nd (h nd hn hlock) hlock⟩

theorem stays_of_node (h : s'.node n = s.node n) : Stays n s s' :=
  fun _ hn _ => h.trans hn

/-- Nobody else takes the mutex of the node. -/
theorem lock_node_stops (hn : s.node n = some nd) (hlock : nd.lock = true) :
    lockNode n s = .error .deadlock := by
  unfold lockNode
  rw [run_bind_of_ok (the_node_run hn), hlock]
  rfl

theorem stays_lock_self {α : Type} (rest : Unit → VfsCall D α) :
    Keeps (Stays n) (lockNode n >>= rest) := by
  intro s a s' hrun nd hn hlock
  rw [run_bind_of_error (lock_node_stops hn hlock)] at hrun
  cases hrun

theorem stays_the_node (m : NodeId) : Keeps (Stays n) (theNode m : VfsCall D FsNode) := by
  refine keeps_get.bind fun s => ?_
  cases s.node m with
  | none => exact keeps_throw _
  | some md => exact keeps_pure md

theorem stays_the_fs : Keeps (Stays n) (theFs : VfsCall D Fs) := by
  refine keeps_get.bind fun s => ?_
  cases s.fs with
  | none => exact keeps_throw _
  | some fs => exact keeps_pure fs

theorem stays_put_fs (fs : Option Fs) : Keeps (Stays n) (putFs fs : VfsCall D Unit) :=
  keeps_modify fun _ => stays_of_node rfl

theorem stays_tell_driver (change : D → D) : Keeps (Stays n) (tellDriver change : VfsCall D Unit) :=
  keeps_modify fun _ => stays_of_node rfl

theorem stays_put_node {m : NodeId} (hm : n ≠ m) (md : Option FsNode) :
    Keeps (Stays n) (putNode m md : VfsCall D Unit) :=
  keeps_modify fun _ => stays_of_node (Function.update_of_ne hm ..)

theorem stays_change_node {m : NodeId} (hm : n ≠ m) (change : FsNode → FsNode) :
    Keeps (Stays n) (changeNode m change : VfsCall D Unit) :=
  (stays_the_node m).bind fun _ => stays_put_node hm _

theorem stays_lock_node {m : NodeId} (hm : n ≠ m) : Keeps (Stays n) (lockNode m : VfsCall D Unit) :=
  (stays_the_node m).bind fun _ => keeps_ite (fun _ => keeps_throw _)
    fun _ => stays_change_node hm _

theorem stays_remove_child {m : NodeId} (hm : n ≠ m) (name : Name) :
    Keeps (Stays n) (removeChild m name : VfsCall D Unit) := by
  refine (stays_the_node m).bind fun md => ?_
  cases md.children with
  | none => exact keeps_throw _
  | some entries => exact stays_put_node hm _

theorem stays_assert (cond : Bool) : Keeps (Stays n) (assertVfs cond : VfsCall D Unit) :=
  keeps_ite (fun _ => keeps_pure _) fun _ => keeps_throw _

theorem stays_unref_fs : Keeps (Stays n) (unrefFs d) := by
  refine Keeps.bind (stays_the_fs.bind fun _ => keeps_ite (fun _ => keeps_throw _)
    fun _ => stays_put_fs _) fun _ => stays_the_fs.bind fun _ => (stays_put_fs _).bind fun _ => ?_
  refine keeps_ite (fun _ => ?_) fun _ => stays_the_fs.bind fun _ => stays_put_fs _
  exact (stays_the_node _).bind fun _ => (stays_assert _).bind fun _ =>
    (stays_tell_driver _).bind fun _ => (stays_tell_driver _).bind fun _ => stays_put_fs _

theorem stays_unref_up_to (depth : Nat) (m : NodeId) :
    Keeps (Stays n) (unrefUpTo d depth m) := by
  induction depth generalizing m with
  | zero => exact keeps_throw _
  | succ depth ih =>
      unfold unrefUpTo
      by_cases hm : n = m
      · subst hm
        exact stays_lock_self _
      · refine (stays_lock_node hm).bind fun _ => (stays_change_node hm _).bind fun _ =>
          (stays_the_node m).bind fun md => ?_
        refine keeps_ite (fun _ => (stays_assert _).bind fun _ => ?_) fun _ => stays_change_node hm _
        cases md.parent with
        | none => exact keeps_throw _
        | some p =>
            by_cases hp : n = p
            · subst hp
              exact stays_lock_self _
            · exact (stays_lock_node hp).bind fun _ => (stays_remove_child hp _).bind fun _ =>
                (stays_tell_driver _).bind fun _ => (stays_change_node hp _).bind fun _ =>
                  (ih p).bind fun _ => (stays_unref_fs d).bind fun _ =>
                    (stays_the_node m).bind fun _ => (stays_assert _).bind fun _ =>
                      stays_put_node hm none

/-- The last reference of a node whose table is not empty: the call does not come back. -/
theorem unref_full_stops (hn : s.node n = some nd) (hlock : nd.lock = false) (hrefs : nd.refs = 1)
    (hfull : nd.entries ≠ []) : unrefFsNode d n s ≠ .ok ((), s') := by
  intro hrun
  rw [unref_fs_node_eq, unrefUpTo, run_bind_of_ok (lock_node_run hn hlock),
    run_bind_of_ok (change_node_run (Vfs.put_node_self ..) _),
    run_bind_of_ok (the_node_run (Vfs.put_node_self ..)), Vfs.put_put, run_ite,
    if_pos (show nd.refs - 1 = 0 by omega)] at hrun
  have hlocked : (s.put n (some { nd with refs := nd.refs - 1, lock := true })).node n =
      some { nd with refs := nd.refs - 1, lock := true } := Vfs.put_node_self ..
  obtain ⟨_, s₁, hassert, hrun⟩ := run_bind_eq_ok hrun
  have hs₁ := stays_assert _ _ _ _ hassert _ hlocked rfl
  cases hparent : nd.parent with
  | none =>
      simp only [hparent] at hrun
      cases hrun
  | some p =>
      simp only [hparent] at hrun
      by_cases hp : n = p
      · rw [← hp, run_bind_of_error (lock_node_stops hs₁ rfl)] at hrun
        cases hrun
      · -- nothing touches the node until its table is looked at
        obtain ⟨_, s₂, h₂, hrun⟩ := run_bind_eq_ok hrun
        have hs₂ := stays_lock_node hp _ _ _ h₂ _ hs₁ rfl
        obtain ⟨_, s₃, h₃, hrun⟩ := run_bind_eq_ok hrun
        have hs₃ := stays_remove_child hp _ _ _ _ h₃ _ hs₂ rfl
        obtain ⟨_, s₄, h₄, hrun⟩ := run_bind_eq_ok hrun
        have hs₄ := stays_tell_driver _ _ _ _ h₄ _ hs₃ rfl
        obtain ⟨_, s₅, h₅, hrun⟩ := run_bind_eq_ok hrun
        have hs₅ := stays_change_node hp _ _ _ _ h₅ _ hs₄ rfl
        obtain ⟨_, s₆, h₆, hrun⟩ := run_bind_eq_ok hrun
        have hs₆ := stays_unref_up_to d _ p _ _ _ h₆ _ hs₅ rfl
        obtain ⟨_, s₇, h₇, hrun⟩ := run_bind_eq_ok hrun
        have hs₇ := stays_unref_fs d _ _ _ h₇ _ hs₆ rfl
        rw [run_bind_of_ok (the_node_run hs₇)] at hrun
        obtain ⟨_, s₈, h₈, -⟩ := run_bind_eq_ok hrun
        have hentries : nd.entries.isEmpty = false := by
          cases hlist : nd.entries with
          | nil => exact absurd hlist hfull
          | cons e rest => rfl
        change (assertVfs nd.entries.isEmpty : VfsCall D Unit) s₇ = _ at h₈
        rw [hentries] at h₈
        cases h₈

end Unref

end Kogata.Kernel
