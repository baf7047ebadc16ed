import Kogata.Kernel.Iso9660
import Kogata.Kernel.VfsExact

/-!
# Paths on an ISO 9660 file system

The ISO 9660 driver under the virtual file system. The nodes in memory hang together by the names
under which the driver has found their records, so that a walk through them leads where a walk
through the disc would. `iso_confined_iff` says for which paths that is below the directory where
the walk starts.
-/

namespace Kogata.Kernel

open Lib.Effect Lib.Run

variable {W : Type}

/-- `iso9660_node_t` with the table of operations of its node. The record is kept by the place that
it was copied from; of its fields only the extent is read again. -/
structure IsoNode where
  isDir : Bool
  extent : Extent
  place : Extent × UInt32
  deriving DecidableEq

/-- What the node describes. -/
def IsoNode.entity (node : IsoNode) : Entity :=
  if node.isDir then .dir node.extent else .file node.place.1 node.place.2

/-- The node data that `iso9660_dir_walk` makes of a record. -/
def isoNodeAt (disc : Disc) (e : Extent) (pos : UInt32) : IsoNode where
  isDir := recordIsDir (recordAt disc e pos)
  extent := recordExtent (recordAt disc e pos)
  place := (e, pos)

/-- The driver's data of the nodes. Where a node has been disposed of, its data stays: nothing
leads to it. -/
structure IsoState (W : Type) where
  world : W
  nodes : NodeId → Option IsoNode

/-- `iso9660_dir_walk`, and no answer from the node of a file, which has no `walk`. -/
def isoDirWalk (disc : Disc) (lower : Bool) (m : IsoMachine W) (n : NodeId) (searchFor : Name)
    (nodeD : NodeId) (s : IsoState W) : Bool × IsoState W :=
  match s.nodes n with
  | none => (false, s)
  | some node =>
      if node.isDir then
        let (found, w) := dirWalkLoop disc lower m node.extent searchFor node.extent.size.toNat 0
          s.world
        match found with
        | none => (false, { s with world := w })
        | some pos =>
            let (allocated, w) := m.malloc w
            if allocated then
              let (pager, w) := m.newVfsPager w
              if pager then
                (true, { world := w
                         nodes := Function.update s.nodes nodeD
                           (some (isoNodeAt disc node.extent pos)) })
              else (false, { s with world := w })
            else (false, { s with world := w })
      else (false, s)

/-- `iso9660_dir_open` and `iso9660_file_open`. -/
def isoOpen (n : NodeId) (mode : UInt32) (s : IsoState W) : Bool × IsoState W :=
  match s.nodes n with
  | none => (false, s)
  | some node =>
      if node.isDir then (mode == fmReaddir, s)
      else (mode &&& ~~~(fmRead ||| fmMmap) == 0, s)

/-- `iso9660_dir_ops`, `iso9660_file_ops` and `iso9660_fs_ops`. -/
def isoDriver (disc : Disc) (lower : Bool) (m : IsoMachine W) : Driver (IsoState W) where
  walk := isoDirWalk disc lower m
  openNode := isoOpen
  create := fun _ _ _ s => (false, s)
  stat := fun _ s => (true, s)
  close := fun _ s => s
  dispose := fun _ s => s
  shutdown := fun s => s

/-- The driver's data after `iso9660_make`; the root's record is that of the volume descriptor. -/
def isoMake (root : Extent) (w : W) : IsoState W where
  world := w
  nodes := Function.update (fun _ => none) fsRoot
    (some { isDir := true, extent := root, place := (root, 0) })

/-- What may happen to the file system: a call on it, a walk from a node in memory, as `fs_subfs`
does it and `fs_open` through the file system that it made, and the end of a reference. -/
inductive IsoRequest where
  | call (request : FsRequest)
  | walk (base : NodeId) (path : Name)
  | drop (n : NodeId)
  deriving DecidableEq

/-- The call, without its result. -/
def IsoRequest.run (d : Driver (IsoState W)) : IsoRequest → VfsCall (IsoState W) Unit
  | .call request => request.run d
  | .walk base path => do let _ ← fsWalkPath d base path
  | .drop n => unrefFsNode d n

/-- The runs of the file system on a disc. -/
def isoRuns (disc : Disc) (lower : Bool) (m : IsoMachine W) (init : Vfs (IsoState W)) :
    System (Vfs (IsoState W)) where
  init := fun s => s = init
  step := fun s s' => ∃ request : IsoRequest, request.run (isoDriver disc lower m) s = .ok ((), s')

section Walk

variable {disc : Disc} {lower : Bool} {m : IsoMachine W} {tree : DirectoryTree disc} {e : Extent}

/-- The bytes of a record inside the extent are among those that are read. -/
theorem lt_read_of_inside {pos i : UInt32} {len : UInt8} (hin : pos < e.size)
    (hi : i.toNat < len.toNat) (hinside : pos.toNat + len.toNat ≤ e.size.toNat) :
    i < min 256 (e.size - pos) := by
  have hlen := len.toNat_lt
  show i < if (256 : UInt32) ≤ e.size - pos then 256 else e.size - pos
  split
  · rw [UInt32.lt_iff_toNat_lt]
    show _ < 256
    omega
  · rw [UInt32.lt_iff_toNat_lt, UInt32.toNat_sub_of_le _ _ (UInt32.le_of_lt hin)]
    omega

/-- In a directory of the tree the loop finds what is on the disc: the bytes that it compares have
been read. -/
theorem dir_walk_loop_finds (hdir : tree.Dir e) {searchFor : Name} {fuel : Nat} {pos found : UInt32}
    {w w' : W} (hpos : pos < e.size → Visited disc e pos)
    (h : dirWalkLoop disc lower m e searchFor fuel pos w = (some found, w')) :
    Finds disc lower e searchFor pos found := by
  induction fuel generalizing pos w with
  | zero => cases h
  | succ fuel ih =>
      unfold dirWalkLoop at h
      split at h
      · next hin =>
          generalize m.pagerRead w = answer at h
          obtain ⟨read, w₁⟩ := answer
          cases read with
          | false => cases h
          | true =>
              simp only [if_true] at h
              split at h
              · cases h
              · next hread =>
                  have hreclen : recordLen (readBuffer disc e pos (min 256 (e.size - pos))
                      (m.stale w₁)) = recordLen (recordAt disc e pos) := by
                    unfold recordLen readBuffer
                    rw [if_pos (UInt32.lt_of_lt_of_le (by decide) (UInt32.not_lt.mp hread))]
                  rw [hreclen] at h
                  split at h
                  · cases h
                  · next hzero =>
                      obtain ⟨hname, hlen, hinside⟩ := tree.inside e hdir pos (hpos hin) hzero
                      have hsame : ∀ i : UInt32, i.toNat < 33 + (recordAt disc e pos 32).toNat →
                          readBuffer disc e pos (min 256 (e.size - pos)) (m.stale w₁) i =
                            recordAt disc e pos i := by
                        intro i hi
                        unfold readBuffer
                        rw [if_pos (lt_read_of_inside hin (Nat.lt_of_lt_of_le hi hlen) hinside)]
                      rw [entry_matches_congr hname hsame] at h
                      split at h
                      · next hmatch =>
                          cases h
                          exact .here hin hzero hmatch
                      · next hmatch =>
                          exact .later hin hzero (Bool.eq_false_iff.mpr hmatch)
                            (ih (fun hnext => (hpos hin).next hzero hnext) h)
      · cases h

/-- What `iso9660_dir_walk` does to the data of the nodes. -/
theorem iso_dir_walk_cases {n nodeD : NodeId} {searchFor : Name} {s s' : IsoState W} {done : Bool}
    (h : isoDirWalk disc lower m n searchFor nodeD s = (done, s')) :
    done = false ∧ s'.nodes = s.nodes ∨
      done = true ∧ ∃ node pos w w', s.nodes n = some node ∧ node.isDir = true ∧
        dirWalkLoop disc lower m node.extent searchFor node.extent.size.toNat 0 w = (some pos, w') ∧
        s'.nodes = Function.update s.nodes nodeD (some (isoNodeAt disc node.extent pos)) := by
  unfold isoDirWalk at h
  cases hnode : s.nodes n with
  | none =>
      rw [hnode] at h
      cases h
      exact .inl ⟨rfl, rfl⟩
  | some node =>
      rw [hnode] at h
      simp only at h
      cases hdir : node.isDir with
      | false =>
          rw [hdir] at h
          cases h
          exact .inl ⟨rfl, rfl⟩
      | true =>
          rw [hdir, if_pos rfl] at h
          generalize hloop : dirWalkLoop disc lower m node.extent searchFor
            node.extent.size.toNat 0 s.world = result at h
          obtain ⟨found, w⟩ := result
          cases found with
          | none =>
              cases h
              exact .inl ⟨rfl, rfl⟩
          | some pos =>
              simp only at h
              split at h
              · split at h
                · cases h
                  exact .inr ⟨rfl, node, pos, s.world, w, rfl, hdir, hloop, rfl⟩
                · cases h
                  exact .inl ⟨rfl, rfl⟩
              · cases h
                exact .inl ⟨rfl, rfl⟩

end Walk

theorem ask_driver_ok {D α : Type} {question : D → α × D} {s s' : Vfs D} {a answer : α}
    {driver : D} (h : askDriver question s = .ok (a, s'))
    (hanswer : question s.driver = (answer, driver)) :
    a = answer ∧ s' = { s with driver := driver } := by
  change Except.ok ((question s.driver).1, { s with driver := (question s.driver).2 }) =
    Except.ok (a, s') at h
  rw [hanswer] at h
  cases h
  exact ⟨rfl, rfl⟩

section Shrinks

variable {s s' : Vfs (IsoState W)}

/-- The step binds no name in a table, and gives no data to a node. -/
structure Shrinks (s s' : Vfs (IsoState W)) : Prop where
  nodes : s'.driver.nodes = s.driver.nodes
  next : s.nextNode ≤ s'.nextNode
  tables : ∀ n nd', s'.node n = some nd' →
    (∃ nd, s.node n = some nd ∧ ∀ e ∈ nd'.entries, e ∈ nd.entries) ∨
      n < s'.nextNode ∧ nd'.entries = []

instance : Std.Refl (Shrinks (W := W)) :=
  ⟨fun _ => ⟨rfl, Nat.le_refl _, fun _ nd' hn => .inl ⟨nd', hn, fun _ he => he⟩⟩⟩

instance : IsTrans (Vfs (IsoState W)) Shrinks where
  trans s t u h h' := by
    refine ⟨h'.nodes.trans h.nodes, Nat.le_trans h.next h'.next, fun n nd' hn => ?_⟩
    obtain ⟨nd, hnd, hsub⟩ | hnew := h'.tables n nd' hn
    · obtain ⟨od, hod, hsub'⟩ | ⟨hlt, hempty⟩ := h.tables n nd hnd
      · exact .inl ⟨od, hod, fun e he => hsub' e (hsub e he)⟩
      · refine .inr ⟨Nat.lt_of_lt_of_le hlt h'.next, ?_⟩
        rw [List.eq_nil_iff_forall_not_mem]
        intro e he
        rw [List.eq_nil_iff_forall_not_mem] at hempty
        exact hempty e (hsub e he)
    · exact .inr hnew

/-- A step that leaves nodes and their data alone. -/
theorem shrinks_of_same (hnode : s'.node = s.node) (hnodes : s'.driver.nodes = s.driver.nodes)
    (hnext : s'.nextNode = s.nextNode) : Shrinks s s' where
  nodes := hnodes
  next := Nat.le_of_eq hnext.symm
  tables := fun _ nd' hn => .inl ⟨nd', hnode ▸ hn, fun _ he => he⟩

/-- A step that writes the block of a node without binding a name in it. -/
theorem shrinks_put {n : NodeId} {nd : FsNode} (hn : s.node n = some nd) {nd' : Option FsNode}
    (hsub : ∀ od, nd' = some od → ∀ e ∈ od.entries, e ∈ nd.entries) : Shrinks s (s.put n nd') where
  nodes := rfl
  next := Nat.le_refl _
  tables := fun k kd hk => by
    by_cases hkn : k = n
    · subst hkn
      rw [Vfs.put_node_self] at hk
      exact .inl ⟨nd, hn, hsub kd hk⟩
    · rw [Vfs.put_node_of_ne s hkn] at hk
      exact .inl ⟨kd, hk, fun _ he => he⟩

/-- A new node, and a driver that gave it no data. -/
theorem shrinks_new_node (s : Vfs (IsoState W)) {nd : FsNode} {driver : IsoState W}
    (hempty : nd.entries = []) (hnodes : driver.nodes = s.driver.nodes) :
    Shrinks s { s with driver := driver
                       node := Function.update s.node s.nextNode (some nd)
                       nextNode := s.nextNode + 1 } where
  nodes := hnodes
  next := Nat.le_succ _
  tables := fun n nd' hn => by
    change Function.update s.node s.nextNode (some nd) n = some nd' at hn
    by_cases hnn : n = s.nextNode
    · rw [hnn, Function.update_self] at hn
      cases hn
      exact .inr ⟨hnn ▸ Nat.lt_succ_self _, hempty⟩
    · rw [Function.update_of_ne hnn] at hn
      exact .inl ⟨nd', hn, fun _ he => he⟩

theorem the_node_ok {D : Type} {s s' : Vfs D} {n : NodeId} {nd : FsNode}
    (h : theNode n s = .ok (nd, s')) : s.node n = some nd ∧ s' = s := by
  rw [theNode, run_get_bind] at h
  cases hn : s.node n with
  | none =>
      rw [hn] at h
      cases h
  | some od =>
      rw [hn] at h
      cases h
      exact ⟨rfl, rfl⟩

theorem shrinks_the_node (n : NodeId) : Keeps Shrinks (theNode n : VfsCall (IsoState W) FsNode) := by
  intro s nd s' h
  obtain ⟨-, rfl⟩ := the_node_ok h
  exact refl_of Shrinks _

/-- A change of a node's fields that binds no name. -/
theorem shrinks_change_node (n : NodeId) {change : FsNode → FsNode}
    (hsub : ∀ nd, ∀ e ∈ (change nd).entries, e ∈ nd.entries) :
    Keeps Shrinks (changeNode n change : VfsCall (IsoState W) Unit) := by
  intro s _ s' h
  obtain ⟨nd, mid, hnode, hput⟩ := run_bind_eq_ok h
  obtain ⟨hn, rfl⟩ := the_node_ok hnode
  cases hput
  refine shrinks_put hn fun od hod => ?_
  cases hod
  exact hsub nd

theorem shrinks_lock_node (n : NodeId) : Keeps Shrinks (lockNode n : VfsCall (IsoState W) Unit) :=
  (shrinks_the_node n).bind fun _ => keeps_ite (fun _ => keeps_throw _)
    fun _ => shrinks_change_node n fun _ _ he => he

theorem shrinks_unlock_node (n : NodeId) :
    Keeps Shrinks (unlockNode n : VfsCall (IsoState W) Unit) :=
  shrinks_change_node n fun _ _ he => he

theorem shrinks_change_refs (n : NodeId) (change : Int → Int) : Keeps Shrinks
    (changeNode n fun nd => { nd with refs := change nd.refs } : VfsCall (IsoState W) Unit) :=
  shrinks_change_node n fun _ _ he => he

theorem shrinks_ref_fs_node (n : NodeId) :
    Keeps Shrinks (refFsNode n : VfsCall (IsoState W) Unit) :=
  (shrinks_lock_node n).bind fun _ =>
    (shrinks_change_refs n (· + 1)).bind fun _ => shrinks_unlock_node n

/-- Freeing a node that is there. -/
theorem shrinks_free_node (n : NodeId) : Keeps Shrinks (putNode n none : VfsCall (IsoState W) Unit) := by
  intro s _ s' h
  cases h
  refine ⟨rfl, Nat.le_refl _, fun k kd hk => ?_⟩
  change (s.put n none).node k = some kd at hk
  by_cases hkn : k = n
  · subst hkn
    rw [Vfs.put_node_self] at hk
    cases hk
  · rw [Vfs.put_node_of_ne s hkn] at hk
    exact .inl ⟨kd, hk, fun _ he => he⟩

theorem shrinks_remove_child (n : NodeId) (name : Name) :
    Keeps Shrinks (removeChild n name : VfsCall (IsoState W) Unit) := by
  intro s _ s' h
  obtain ⟨nd, mid, hnode, hput⟩ := run_bind_eq_ok h
  obtain ⟨hn, rfl⟩ := the_node_ok hnode
  cases hchildren : nd.children with
  | none =>
      rw [hchildren] at hput
      cases hput
  | some entries =>
      rw [hchildren] at hput
      cases hput
      refine shrinks_put hn fun od hod e he => ?_
      cases hod
      have hentries : nd.entries = entries := by
        rw [FsNode.entries, hchildren]
        rfl
      rw [hentries]
      exact (List.mem_filter.mp he).1

/-- A change that no node and no data of a node takes part in. -/
theorem shrinks_modify {change : Vfs (IsoState W) → Vfs (IsoState W)}
    (h : ∀ s, (change s).node = s.node ∧ (change s).driver.nodes = s.driver.nodes ∧
      (change s).nextNode = s.nextNode) :
    Keeps Shrinks (modify change : VfsCall (IsoState W) PUnit) :=
  keeps_modify fun s => shrinks_of_same (h s).1 (h s).2.1 (h s).2.2

theorem shrinks_put_fs (fs : Option Fs) : Keeps Shrinks (putFs fs : VfsCall (IsoState W) Unit) :=
  shrinks_modify fun _ => ⟨rfl, rfl, rfl⟩

theorem shrinks_put_file (h : HandleId) (file : Option OpenFile) :
    Keeps Shrinks (putFile h file : VfsCall (IsoState W) Unit) :=
  shrinks_modify fun _ => ⟨rfl, rfl, rfl⟩

theorem shrinks_the_fs : Keeps Shrinks (theFs : VfsCall (IsoState W) Fs) := by
  refine (keeps_get (σ := Vfs (IsoState W))).bind fun s => ?_
  cases s.fs with
  | none => exact keeps_throw _
  | some fs => exact keeps_pure _

theorem shrinks_the_file (h : HandleId) :
    Keeps Shrinks (theFile h : VfsCall (IsoState W) OpenFile) := by
  refine (keeps_get (σ := Vfs (IsoState W))).bind fun s => ?_
  cases s.handle h with
  | none => exact keeps_throw _
  | some file => exact keeps_pure _

theorem shrinks_lock_fs : Keeps Shrinks (lockFs : VfsCall (IsoState W) Unit) :=
  shrinks_the_fs.bind fun _ => keeps_ite (fun _ => keeps_throw _) fun _ => shrinks_put_fs _

theorem shrinks_unlock_fs : Keeps Shrinks (unlockFs : VfsCall (IsoState W) Unit) :=
  shrinks_the_fs.bind fun _ => shrinks_put_fs _

theorem shrinks_ref_fs : Keeps Shrinks (refFs : VfsCall (IsoState W) Unit) :=
  shrinks_lock_fs.bind fun _ => shrinks_the_fs.bind fun _ => (shrinks_put_fs _).bind fun _ =>
    shrinks_unlock_fs

theorem shrinks_assert (c : Bool) : Keeps Shrinks (assertVfs c : VfsCall (IsoState W) Unit) :=
  keeps_ite (fun _ => keeps_pure _) fun _ => keeps_throw _

variable {disc : Disc} {lower : Bool} {m : IsoMachine W}

theorem shrinks_dispose (n : NodeId) :
    Keeps Shrinks (tellDriver ((isoDriver disc lower m).dispose n)) :=
  shrinks_modify fun _ => ⟨rfl, rfl, rfl⟩

theorem shrinks_unref_fs : Keeps Shrinks (unrefFs (isoDriver disc lower m)) := by
  refine shrinks_lock_fs.bind fun _ => shrinks_the_fs.bind fun fs => (shrinks_put_fs _).bind
    fun _ => keeps_ite (fun _ => ?_) fun _ => shrinks_unlock_fs
  exact (shrinks_the_node fsRoot).bind fun _ => (shrinks_assert _).bind fun _ =>
    (shrinks_dispose fsRoot).bind fun _ =>
      (shrinks_modify fun _ => ⟨rfl, rfl, rfl⟩).bind fun _ => shrinks_put_fs none

theorem shrinks_unref_up_to (depth : Nat) (n : NodeId) :
    Keeps Shrinks (unrefUpTo (isoDriver disc lower m) depth n) := by
  induction depth generalizing n with
  | zero => exact keeps_throw _
  | succ depth ih =>
      refine (shrinks_lock_node n).bind fun _ => (shrinks_change_refs n (· - 1)).bind
        fun _ => (shrinks_the_node n).bind fun nd => keeps_ite (fun _ => ?_)
          fun _ => shrinks_unlock_node n
      refine (shrinks_assert _).bind fun _ => ?_
      cases nd.parent with
      | none => exact keeps_throw _
      | some p =>
          exact (shrinks_lock_node p).bind fun _ => (shrinks_remove_child p _).bind fun _ =>
            (shrinks_dispose n).bind fun _ => (shrinks_unlock_node p).bind fun _ =>
              (ih p).bind fun _ => shrinks_unref_fs.bind fun _ =>
                (shrinks_the_node n).bind fun _ => (shrinks_assert _).bind fun _ =>
                  shrinks_free_node n

theorem shrinks_unref_fs_node (n : NodeId) :
    Keeps Shrinks (unrefFsNode (isoDriver disc lower m) n) :=
  fun s => shrinks_unref_up_to (s.nextNode + 1) n s

end Shrinks

section Linked

variable {disc : Disc} {lower : Bool} {m : IsoMachine W} {tree : DirectoryTree disc}
  {s s' : Vfs (IsoState W)}

/-- In the directory that the first node describes, the name leads to what the second describes. -/
def Leads (disc : Disc) (lower : Bool) (a : IsoNode) (name : Name) (b : IsoNode) : Prop :=
  a.isDir = true ∧ ∃ pos, Finds disc lower a.extent name 0 pos ∧
    b.entity = entityAt disc a.extent pos

/-- The nodes in memory describe what is on the disc, and are bound under the names that lead
there. -/
structure IsoTree (tree : DirectoryTree disc) (lower : Bool) (s : Vfs (IsoState W)) : Prop where
  old : ∀ n nd, s.node n = some nd → n < s.nextNode
  located : ∀ n data, s.driver.nodes n = some data →
    ∃ address, Located tree lower data.entity address
  linked : ∀ p pd, s.node p = some pd → ∀ e ∈ pd.entries, e.2 < s.nextNode ∧
    ∃ a b, s.driver.nodes p = some a ∧ s.driver.nodes e.2 = some b ∧ Leads disc lower a e.1 b

/-- The step keeps the nodes linked, and the data of those that there are. -/
def IsoKept (tree : DirectoryTree disc) (lower : Bool) (s s' : Vfs (IsoState W)) : Prop :=
  IsoTree tree lower s → IsoTree tree lower s' ∧ s.nextNode ≤ s'.nextNode ∧
    ∀ n < s.nextNode, s'.driver.nodes n = s.driver.nodes n

instance : Std.Refl (IsoKept (W := W) tree lower) :=
  ⟨fun _ h => ⟨h, Nat.le_refl _, fun _ _ => rfl⟩⟩

instance : IsTrans (Vfs (IsoState W)) (IsoKept tree lower) where
  trans s t u h h' hs := by
    obtain ⟨ht, hnext, hnodes⟩ := h hs
    obtain ⟨hu, hnext', hnodes'⟩ := h' ht
    exact ⟨hu, Nat.le_trans hnext hnext', fun n hn =>
      (hnodes' n (Nat.lt_of_lt_of_le hn hnext)).trans (hnodes n hn)⟩

theorem Shrinks.kept (h : Shrinks s s') : IsoKept tree lower s s' := by
  intro hs
  refine ⟨⟨fun n nd' hn => ?_, fun n data hdata => ?_, fun p pd' hp e he => ?_⟩, h.next,
    fun n _ => congrFun h.nodes n⟩
  · obtain ⟨nd, hnd, -⟩ | ⟨hlt, -⟩ := h.tables n nd' hn
    · exact Nat.lt_of_lt_of_le (hs.old n nd hnd) h.next
    · exact hlt
  · rw [h.nodes] at hdata
    exact hs.located n data hdata
  · obtain ⟨pd, hpd, hsub⟩ | ⟨-, hempty⟩ := h.tables p pd' hp
    · obtain ⟨hlt, hlink⟩ := hs.linked p pd hpd e (hsub e he)
      rw [h.nodes]
      exact ⟨Nat.lt_of_lt_of_le hlt h.next, hlink⟩
    · rw [hempty] at he
      cases he

theorem kept_of_shrinks {α : Type} {program : VfsCall (IsoState W) α}
    (h : Keeps Shrinks program) : Keeps (IsoKept tree lower) program :=
  h.mono fun _ _ hstep => hstep.kept

/-- What a walk finds in a located directory is located. -/
theorem Located.found {e : Extent} {address : List Name} {name : Name} {pos : UInt32}
    (h : Located tree lower (.dir e) address) (hfinds : Finds disc lower e name 0 pos) :
    ∃ address', Located tree lower (entityAt disc e pos) address' := by
  by_cases hname : name = []
  · subst hname
    exact ⟨_, .down h hfinds (by decide) (by decide)⟩
  · exact ⟨_, h.step hname hfinds⟩

theorem IsoNode.entity_of_dir {a : IsoNode} (h : a.isDir = true) : a.entity = .dir a.extent := by
  unfold IsoNode.entity
  rw [if_pos h]

/-- The state in which a new node has the data of a record and is bound under a name. -/
theorem IsoTree.insert (hs : IsoTree tree lower s) {base : NodeId} {bd nd : FsNode}
    (hb : s.node base = some bd) {a : IsoNode} (ha : s.driver.nodes base = some a)
    (hdir : a.isDir = true) {file : Name} {pos : UInt32}
    (hfinds : Finds disc lower a.extent file 0 pos) (hempty : nd.entries = []) (w : W) :
    IsoTree tree lower { s with
      driver := { world := w
                  nodes := Function.update s.driver.nodes s.nextNode
                    (some (isoNodeAt disc a.extent pos)) }
      node := Function.update (Function.update s.node s.nextNode (some nd)) base
        (some (bd.bind file s.nextNode))
      nextNode := s.nextNode + 1 } := by
  have hbase := hs.old base bd hb
  have hne : ∀ {n : NodeId}, n < s.nextNode →
      Function.update s.driver.nodes s.nextNode (some (isoNodeAt disc a.extent pos)) n =
        s.driver.nodes n :=
    fun hn => Function.update_of_ne (Nat.ne_of_lt hn) _ _
  have hold : ∀ {p : NodeId} {pd : FsNode}, s.node p = some pd → ∀ e ∈ pd.entries,
      e.2 < s.nextNode + 1 ∧ ∃ x y,
        Function.update s.driver.nodes s.nextNode (some (isoNodeAt disc a.extent pos)) p = some x ∧
        Function.update s.driver.nodes s.nextNode (some (isoNodeAt disc a.extent pos)) e.2 = some y ∧
        Leads disc lower x e.1 y := by
    intro p pd hp e he
    obtain ⟨hlt, x, y, hx, hy, hleads⟩ := hs.linked p pd hp e he
    exact ⟨Nat.lt_succ_of_lt hlt, x, y, (hne (hs.old p pd hp)).trans hx, (hne hlt).trans hy, hleads⟩
  refine ⟨fun n nd' hn => ?_, fun n data hdata => ?_, fun p pd' hp e he => ?_⟩
  · change Function.update (Function.update s.node s.nextNode (some nd)) base _ n = some nd' at hn
    show n < s.nextNode + 1
    by_cases hnb : n = base
    · exact hnb ▸ Nat.lt_succ_of_lt hbase
    · rw [Function.update_of_ne hnb] at hn
      by_cases hnn : n = s.nextNode
      · exact hnn ▸ Nat.lt_succ_self _
      · rw [Function.update_of_ne hnn] at hn
        exact Nat.lt_succ_of_lt (hs.old n nd' hn)
  · change Function.update s.driver.nodes s.nextNode _ n = some data at hdata
    by_cases hnn : n = s.nextNode
    · rw [hnn, Function.update_self] at hdata
      cases hdata
      obtain ⟨address, hlocated⟩ := hs.located base a ha
      rw [IsoNode.entity_of_dir hdir] at hlocated
      exact hlocated.found hfinds
    · rw [Function.update_of_ne hnn] at hdata
      exact hs.located n data hdata
  · change Function.update (Function.update s.node s.nextNode (some nd)) base _ p = some pd' at hp
    show e.2 < s.nextNode + 1 ∧ _
    by_cases hpb : p = base
    · subst hpb
      rw [Function.update_self] at hp
      cases hp
      rcases List.mem_cons.mp he with hnew | hmem
      · subst hnew
        refine ⟨Nat.lt_succ_self _, a, isoNodeAt disc a.extent pos, (hne hbase).trans ha, ?_, hdir,
          pos, hfinds, rfl⟩
        exact Function.update_self ..
      · exact hold hb e (List.mem_filter.mp hmem).1
    · rw [Function.update_of_ne hpb] at hp
      by_cases hpn : p = s.nextNode
      · rw [hpn, Function.update_self] at hp
        cases hp
        rw [hempty] at he
        cases he
      · rw [Function.update_of_ne hpn] at hp
        exact hold hp e he

/-- `fs_walk_one` keeps the nodes linked, and the node that it returns is what the name leads to. -/
theorem fs_walk_one_kept {base : NodeId} {file : Name} {found : Option NodeId}
    (h : fsWalkOne (isoDriver disc lower m) base file s = .ok (found, s'))
    (hs : IsoTree tree lower s) :
    (IsoTree tree lower s' ∧ s.nextNode ≤ s'.nextNode ∧
      ∀ n < s.nextNode, s'.driver.nodes n = s.driver.nodes n) ∧
      ∀ n, found = some n → n < s'.nextNode ∧ ∃ a b, s.driver.nodes base = some a ∧
        s'.driver.nodes n = some b ∧ Leads disc lower a file b := by
  obtain ⟨_, s₁, hlock, hwalk⟩ := run_bind_eq_ok h
  have hlocked := shrinks_lock_node base s _ s₁ hlock
  obtain ⟨hs₁, hnext₁, hnodes₁⟩ := hlocked.kept hs
  obtain ⟨bd, mid, hbase, hcases⟩ := run_bind_eq_ok hwalk
  clear hwalk
  obtain ⟨hb, rfl⟩ := the_node_ok hbase
  have hlt := hs₁.old base bd hb
  cases hfind : bd.find file with
  | some n =>
      rw [hfind] at hcases
      have hrest : Keeps Shrinks (do
          refFsNode n
          unlockNode base
          return some n : VfsCall (IsoState W) (Option NodeId)) :=
        (shrinks_ref_fs_node n).bind fun _ => (shrinks_unlock_node base).bind fun _ => keeps_pure _
      have hshrinks := hrest _ _ _ hcases
      obtain ⟨hs', hnext', hnodes'⟩ := hshrinks.kept hs₁
      refine ⟨⟨hs', Nat.le_trans hnext₁ hnext', fun k hk => ?_⟩, fun k hk => ?_⟩
      · exact (hnodes' k (Nat.lt_of_lt_of_le hk hnext₁)).trans (hnodes₁ k hk)
      · have hn : k = n := by
          obtain ⟨_, t, -, hunlock⟩ := run_bind_eq_ok hcases
          obtain ⟨_, t', -, hreturn⟩ := run_bind_eq_ok hunlock
          obtain ⟨hfound, -⟩ := run_pure_eq_ok hreturn
          exact Option.some.inj (hk.symm.trans hfound)
        subst hn
        obtain ⟨l₁, l₂, hsplit, -⟩ := List.lookup_eq_some_iff.mp hfind
        have hmem : (file, k) ∈ bd.entries := by
          rw [hsplit]
          simp
        obtain ⟨hklt, a, b, ha, hb', hleads⟩ := hs₁.linked base bd hb _ hmem
        refine ⟨Nat.lt_of_lt_of_le hklt hnext', a, b, ?_, ?_, hleads⟩
        · rw [← hlocked.nodes]
          exact ha
        · exact (hnodes' k hklt).trans hb'
  | none =>
      rw [hfind] at hcases
      obtain ⟨n, s₂, hnew, hrest⟩ := run_bind_eq_ok hcases
      cases hnew
      generalize hwalk : isoDirWalk disc lower m base file mid.nextNode mid.driver = answer
      obtain ⟨answered, driver⟩ := answer
      obtain ⟨done, s₃, hask, hrest⟩ := run_bind_eq_ok hrest
      obtain ⟨rfl, rfl⟩ := ask_driver_ok hask hwalk
      rcases iso_dir_walk_cases hwalk with ⟨rfl, hnodes⟩ | ⟨rfl, a, pos, w, w', ha, hdir, hloop, hnodes⟩
      · -- The new node is freed again.
        have htail : Keeps Shrinks (do
            putNode mid.nextNode none
            unlockNode base
            return none : VfsCall (IsoState W) (Option NodeId)) :=
          (shrinks_free_node _).bind fun _ => (shrinks_unlock_node base).bind fun _ => keeps_pure _
        have hempty : FsNode.entries { refs := 1, lock := false, name := file, children := none
                                       parent := some base } = [] := rfl
        have hstep := trans_of Shrinks (shrinks_new_node mid hempty hnodes) (htail _ _ _ hrest)
        obtain ⟨hs', hnext', hnodes'⟩ := hstep.kept hs₁
        refine ⟨⟨hs', Nat.le_trans hnext₁ hnext', fun k hk => ?_⟩, fun k hk => ?_⟩
        · exact (hnodes' k (Nat.lt_of_lt_of_le hk hnext₁)).trans (hnodes₁ k hk)
        · obtain ⟨_, t, -, hunlock⟩ := run_bind_eq_ok hrest
          obtain ⟨_, t', -, hreturn⟩ := run_bind_eq_ok hunlock
          obtain ⟨rfl, -⟩ := run_pure_eq_ok hreturn
          cases hk
      · have hlocated : ∃ address, Located tree lower (.dir a.extent) address := by
          rw [← IsoNode.entity_of_dir hdir]
          exact hs₁.located base a ha
        obtain ⟨address, hlocated⟩ := hlocated
        have hfinds := dir_walk_loop_finds hlocated.dir (fun hpos => .first hpos) hloop
        obtain ⟨_, s₄, hbind, htail⟩ := run_bind_eq_ok hrest
        have hs₄ : s₄ = { mid with
            driver := driver
            node := Function.update (Function.update mid.node mid.nextNode
              (some { refs := 1, lock := false, name := file, children := none
                      parent := some base })) base (some (bd.bind file mid.nextNode))
            nextNode := mid.nextNode + 1 } := by
          obtain ⟨bd', t, hnode, hput⟩ := run_bind_eq_ok hbind
          obtain ⟨hbd', rfl⟩ := the_node_ok hnode
          change Function.update mid.node mid.nextNode _ base = some bd' at hbd'
          rw [Function.update_of_ne (Nat.ne_of_lt hlt), hb] at hbd'
          cases hbd'
          cases hput
          rfl
        have hempty : FsNode.entries { refs := 1, lock := false, name := file
                                       children := none, parent := some base } = [] := rfl
        have hinsert := hs₁.insert hb ha hdir hfinds hempty driver.world
        rw [← hnodes] at hinsert
        have hafter : Keeps Shrinks (do
            unlockNode base
            refFsNode base
            refFs
            return some mid.nextNode : VfsCall (IsoState W) (Option NodeId)) :=
          (shrinks_unlock_node base).bind fun _ => (shrinks_ref_fs_node base).bind fun _ =>
            shrinks_ref_fs.bind fun _ => keeps_pure _
        have hshrinks := hafter _ _ _ htail
        rw [hs₄] at hshrinks
        obtain ⟨hs', hnext', hnodes'⟩ := hshrinks.kept hinsert
        have hdata : ∀ k < mid.nextNode, s'.driver.nodes k = mid.driver.nodes k := by
          intro k hk
          refine (hnodes' k (Nat.lt_succ_of_lt hk)).trans ?_
          show driver.nodes k = _
          rw [hnodes, Function.update_of_ne (Nat.ne_of_lt hk)]
        refine ⟨⟨hs', Nat.le_trans hnext₁ (Nat.le_of_succ_le hnext'), fun k hk => ?_⟩,
          fun k hk => ?_⟩
        · exact (hdata k (Nat.lt_of_lt_of_le hk hnext₁)).trans (hnodes₁ k hk)
        · have hk' : k = mid.nextNode := by
            obtain ⟨_, t, -, hunlock⟩ := run_bind_eq_ok htail
            obtain ⟨_, t', -, href⟩ := run_bind_eq_ok hunlock
            obtain ⟨_, t'', -, hreturn⟩ := run_bind_eq_ok href
            obtain ⟨hfound, -⟩ := run_pure_eq_ok hreturn
            exact Option.some.inj (hk.symm.trans hfound)
          subst hk'
          refine ⟨hnext', a, isoNodeAt disc a.extent pos, ?_, ?_, hdir, pos, hfinds, rfl⟩
          · rw [← hlocked.nodes]
            exact ha
          · refine (hnodes' _ (Nat.lt_succ_self _)).trans ?_
            show driver.nodes _ = _
            rw [hnodes, Function.update_self]

/-- The walk from `n` has kept the nodes linked, and what it found is where the items lead on the
disc. -/
structure Walked (tree : DirectoryTree disc) (lower : Bool) (n : NodeId) (items : List Name)
    (found : Option NodeId) (s s' : Vfs (IsoState W)) : Prop where
  kept : IsoTree tree lower s' ∧ s.nextNode ≤ s'.nextNode ∧
    ∀ k < s.nextNode, s'.driver.nodes k = s.driver.nodes k
  leads : ∀ k a address, found = some k → s.driver.nodes n = some a →
    Located tree lower a.entity address → ∃ b, s'.driver.nodes k = some b ∧
      Located tree lower b.entity (normalize address items)

/-- The walk ends where it is. -/
theorem walked_here {n : NodeId} {items : List Name} (hs : IsoTree tree lower s)
    (hitems : ∀ address, normalize address items = address) :
    Walked tree lower n items (some n) s s where
  kept := refl_of (IsoKept tree lower) s hs
  leads := fun k a address hk ha hlocated => by
    cases hk
    rw [hitems]
    exact ⟨a, ha, hlocated⟩

/-- The walk gives up. -/
theorem walked_nowhere {n : NodeId} (items : List Name) {found : Option NodeId}
    (h : (do
      unrefFsNode (isoDriver disc lower m) n
      return none : VfsCall (IsoState W) (Option NodeId)) s = .ok (found, s'))
    (hs : IsoTree tree lower s) : Walked tree lower n items found s s' := by
  obtain ⟨_, s₁, hunref, hreturn⟩ := run_bind_eq_ok h
  obtain ⟨rfl, rfl⟩ := run_pure_eq_ok hreturn
  exact ⟨(shrinks_unref_fs_node n _ _ _ hunref).kept hs, fun k a address hk => (by cases hk)⟩

/-- One item that is not empty, and the end of the reference to the node before it. -/
theorem walked_item {n : NodeId} {item : Name} {found : Option NodeId}
    {s₁ s₂ : Vfs (IsoState W)} (hitem : item ≠ [])
    (hwalk : fsWalkOne (isoDriver disc lower m) n item s = .ok (found, s₁))
    (hunref : unrefFsNode (isoDriver disc lower m) n s₁ = .ok ((), s₂))
    (hs : IsoTree tree lower s) : Walked tree lower n [item] found s s₂ := by
  obtain ⟨⟨hs₁, hnext₁, hnodes₁⟩, hfound⟩ := fs_walk_one_kept hwalk hs
  have hshrinks := shrinks_unref_fs_node n _ _ _ hunref
  obtain ⟨hs₂, hnext₂, hnodes₂⟩ := hshrinks.kept hs₁
  refine ⟨⟨hs₂, Nat.le_trans hnext₁ hnext₂, fun k hk => ?_⟩, fun k a address hk ha hlocated => ?_⟩
  · exact (hnodes₂ k (Nat.lt_of_lt_of_le hk hnext₁)).trans (hnodes₁ k hk)
  · obtain ⟨hlt, a', b, ha', hb, hdir, pos, hfinds, hentity⟩ := hfound k hk
    cases Option.some.inj (ha.symm.trans ha')
    rw [IsoNode.entity_of_dir hdir] at hlocated
    refine ⟨b, (hnodes₂ k hlt).trans hb, ?_⟩
    rw [hentity]
    exact hlocated.step hitem hfinds

/-- A walk that goes on from what the first item led to. -/
theorem Walked.cons {n k : NodeId} {item : Name} {rest : List Name} {found : Option NodeId}
    {s₂ : Vfs (IsoState W)} (h : Walked tree lower n [item] (some k) s s₂)
    (h' : Walked tree lower k rest found s₂ s') :
    Walked tree lower n (item :: rest) found s s' where
  kept := by
    obtain ⟨-, hnext, hnodes⟩ := h.kept
    obtain ⟨hs', hnext', hnodes'⟩ := h'.kept
    exact ⟨hs', Nat.le_trans hnext hnext', fun i hi =>
      (hnodes' i (Nat.lt_of_lt_of_le hi hnext)).trans (hnodes i hi)⟩
  leads := fun i a address hi ha hlocated => by
    obtain ⟨b, hb, hblocated⟩ := h.leads k a address rfl ha hlocated
    exact h'.leads i b _ hi hb hblocated

/-- The walk along the items of a path. -/
theorem walk_items_walked {items : List Name} {n : NodeId} {found : Option NodeId}
    (h : walkItems (isoDriver disc lower m) n items s = .ok (found, s'))
    (hs : IsoTree tree lower s) : Walked tree lower n items found s s' := by
  induction items generalizing n s with
  | nil =>
      obtain ⟨rfl, rfl⟩ := run_pure_eq_ok h
      exact walked_here hs fun _ => rfl
  | cons item rest ih =>
      cases rest with
      | nil =>
          unfold walkItems at h
          split at h
          · next hempty =>
              obtain ⟨rfl, rfl⟩ := run_pure_eq_ok h
              exact walked_here hs fun _ => by simp [normalize, stepName, hempty]
          · next hitem =>
              obtain ⟨n2, s₁, hwalk, hrest⟩ := run_bind_eq_ok h
              obtain ⟨_, s₂, hunref, hreturn⟩ := run_bind_eq_ok hrest
              obtain ⟨rfl, rfl⟩ := run_pure_eq_ok hreturn
              exact walked_item hitem hwalk hunref hs
      | cons next rest =>
          unfold walkItems at h
          split at h
          · exact walked_nowhere _ h hs
          · next hitem =>
              split at h
              · exact walked_nowhere _ h hs
              · obtain ⟨n2, s₁, hwalk, hrest⟩ := run_bind_eq_ok h
                obtain ⟨_, s₂, hunref, hgo⟩ := run_bind_eq_ok hrest
                have hfirst := walked_item hitem hwalk hunref hs
                cases n2 with
                | none =>
                    obtain ⟨rfl, rfl⟩ := run_pure_eq_ok hgo
                    exact ⟨hfirst.kept, fun k a address hk => (by cases hk)⟩
                | some k => exact hfirst.cons (ih hgo hfirst.kept.1)

/-- `fs_walk_path` leads where the path leads on the disc. -/
theorem fs_walk_path_walked {base : NodeId} {path : Name} {found : Option NodeId}
    (h : fsWalkPath (isoDriver disc lower m) base path s = .ok (found, s'))
    (hs : IsoTree tree lower s) : Walked tree lower base (pathItems path) found s s' := by
  obtain ⟨_, s₁, href, hwalk⟩ := run_bind_eq_ok h
  have hshrinks := shrinks_ref_fs_node base _ _ _ href
  obtain ⟨hs₁, hnext₁, hnodes₁⟩ := hshrinks.kept hs
  have hwalked := walk_items_walked hwalk hs₁
  obtain ⟨hs', hnext', hnodes'⟩ := hwalked.kept
  refine ⟨⟨hs', Nat.le_trans hnext₁ hnext', fun k hk =>
    (hnodes' k (Nat.lt_of_lt_of_le hk hnext₁)).trans (hnodes₁ k hk)⟩,
    fun k a address hk ha hlocated => ?_⟩
  rw [← hshrinks.nodes] at ha
  exact hwalked.leads k a address hk ha hlocated

/-- `fs_walk_path_except_last` keeps the nodes linked. -/
theorem kept_walk_items_except_last (n : NodeId) (items : List Name) :
    Keeps (IsoKept tree lower) (walkItemsExceptLast (isoDriver disc lower m) n items) := by
  have hunref : ∀ n, Keeps (IsoKept tree lower) (unrefFsNode (isoDriver disc lower m) n) :=
    fun n => kept_of_shrinks (shrinks_unref_fs_node n)
  induction items generalizing n with
  | nil => exact keeps_pure _
  | cons item rest ih =>
      cases rest with
      | nil => exact keeps_ite (fun _ => (hunref n).bind fun _ => keeps_pure _) fun _ => keeps_pure _
      | cons next rest =>
          refine keeps_ite (fun _ => (hunref n).bind fun _ => keeps_pure _) fun _ =>
            keeps_ite (fun _ => (hunref n).bind fun _ => keeps_pure _) fun _ =>
              keeps_ite (fun _ => keeps_pure _) fun _ => ?_
          have hwalk : Keeps (IsoKept tree lower) (fsWalkOne (isoDriver disc lower m) n item) :=
            fun s found s' h hs => (fs_walk_one_kept h hs).1
          refine hwalk.bind fun n2 => (hunref n).bind fun _ => ?_
          cases n2 with
          | none => exact keeps_pure _
          | some n2 => exact ih n2

theorem kept_walk_path (base : NodeId) (path : Name) :
    Keeps (IsoKept tree lower) (fsWalkPath (isoDriver disc lower m) base path) :=
  fun _ _ _ h hs => (fs_walk_path_walked h hs).kept

/-- A question to the driver that changes no data of a node. -/
theorem kept_ask {question : IsoState W → Bool × IsoState W}
    (h : ∀ s, (question s).2.nodes = s.nodes) :
    Keeps (IsoKept tree lower) (askDriver question) := by
  refine kept_of_shrinks fun s a s' hrun => ?_
  cases hrun
  exact shrinks_of_same rfl (h s.driver) rfl

theorem kept_create_file (okModes : UInt32) (file : Name) (type : UInt32) : Keeps (IsoKept tree lower)
    (createFile (isoDriver disc lower m) okModes fsRoot file type) := by
  refine keeps_ite (fun _ => keeps_pure _) fun _ => ?_
  have hwalk : Keeps (IsoKept tree lower)
      (fsWalkPathExceptLast (isoDriver disc lower m) fsRoot file) :=
    keeps_ite (fun _ => keeps_pure _) fun _ =>
      (kept_of_shrinks (shrinks_ref_fs_node fsRoot)).bind fun _ => kept_walk_items_except_last _ _
  refine hwalk.bind fun found => ?_
  cases found with
  | none => exact keeps_pure _
  | some found =>
      exact (kept_of_shrinks (shrinks_lock_node _)).bind fun _ =>
        (kept_ask fun _ => rfl).bind fun _ =>
          (kept_of_shrinks (shrinks_unlock_node _)).bind fun _ =>
            (kept_of_shrinks (shrinks_unref_fs_node _)).bind fun _ => keeps_pure _

theorem kept_fs_stat (file : Name) :
    Keeps (IsoKept tree lower) (fsStat (isoDriver disc lower m) file) := by
  refine (kept_walk_path fsRoot file).bind fun found => ?_
  cases found with
  | none => exact keeps_pure _
  | some n =>
      exact (kept_of_shrinks (shrinks_lock_node _)).bind fun _ =>
        (kept_ask fun _ => rfl).bind fun _ =>
          (kept_of_shrinks (shrinks_unlock_node _)).bind fun _ =>
            (kept_of_shrinks (shrinks_unref_fs_node _)).bind fun _ => keeps_pure _

theorem iso_open_nodes (n : NodeId) (mode : UInt32) (s : IsoState W) :
    (isoOpen n mode s).2.nodes = s.nodes := by
  unfold isoOpen
  cases s.nodes n with
  | none => rfl
  | some node =>
      simp only
      split <;> rfl

theorem kept_node_to_open (okModes : UInt32) (file : Name) (mode : UInt32) :
    Keeps (IsoKept tree lower) (nodeToOpen (isoDriver disc lower m) okModes fsRoot file mode) := by
  refine (kept_walk_path fsRoot file).bind fun found => ?_
  cases found with
  | some n => exact keeps_pure _
  | none =>
      exact keeps_ite (fun _ => (kept_create_file okModes file ftRegular).bind fun _ =>
        keeps_ite (fun _ => kept_walk_path fsRoot file) fun _ => keeps_pure _)
        fun _ => keeps_pure _

theorem kept_open_found (n : NodeId) (mode : UInt32) :
    Keeps (IsoKept tree lower) (openFound (isoDriver disc lower m) n mode) := by
  refine (kept_of_shrinks (shrinks_lock_node n)).bind fun _ =>
    (kept_ask fun s => iso_open_nodes n mode s).bind fun _ => keeps_ite (fun _ => ?_) fun _ => ?_
  · have hnew : ∀ file, Keeps Shrinks (newFile file : VfsCall (IsoState W) HandleId) := by
      intro file s h s' hrun
      cases hrun
      exact shrinks_of_same rfl rfl rfl
    exact (kept_of_shrinks (hnew _)).bind fun _ =>
      (kept_of_shrinks (shrinks_unlock_node n)).bind fun _ => keeps_pure _
  · exact (kept_of_shrinks (shrinks_unlock_node n)).bind fun _ =>
      (kept_of_shrinks (shrinks_unref_fs_node n)).bind fun _ => keeps_pure _

theorem kept_fs_open (file : Name) (mode : UInt32) :
    Keeps (IsoKept tree lower) (fsOpen (isoDriver disc lower m) file mode) := by
  refine (kept_of_shrinks shrinks_the_fs).bind fun fs => keeps_ite (fun _ => keeps_pure _) fun _ =>
    (kept_node_to_open fs.okModes file mode).bind fun found => ?_
  cases found with
  | none => exact keeps_pure _
  | some n =>
      refine (kept_open_found n _).bind fun opened => ?_
      cases opened with
      | none => exact keeps_pure _
      | some h => exact (kept_of_shrinks shrinks_ref_fs).bind fun _ => keeps_pure _

theorem shrinks_lock_file (h : HandleId) :
    Keeps Shrinks (lockFile h : VfsCall (IsoState W) Unit) :=
  (shrinks_the_file h).bind fun _ => keeps_ite (fun _ => keeps_throw _) fun _ => shrinks_put_file h _

theorem shrinks_unlock_file (h : HandleId) :
    Keeps Shrinks (unlockFile h : VfsCall (IsoState W) Unit) :=
  (shrinks_the_file h).bind fun _ => shrinks_put_file h _

/-- Every call on the file system keeps the nodes linked. -/
theorem iso_request_kept (request : IsoRequest) :
    Keeps (IsoKept tree lower) (request.run (isoDriver disc lower m)) := by
  cases request with
  | call request =>
      cases request with
      | «open» file mode => exact (kept_fs_open file mode).bind fun _ => keeps_pure _
      | stat file => exact (kept_fs_stat file).bind fun _ => keeps_pure _
      | create file type =>
          have hcreate : Keeps (IsoKept tree lower) (fsCreate (isoDriver disc lower m) file type) :=
            (kept_of_shrinks shrinks_the_fs).bind fun fs => kept_create_file fs.okModes file type
          exact hcreate.bind fun _ => keeps_pure _
      | ref h =>
          exact kept_of_shrinks ((shrinks_lock_file h).bind fun _ => (shrinks_the_file h).bind
            fun _ => (shrinks_put_file h _).bind fun _ => shrinks_unlock_file h)
      | unref h =>
          refine kept_of_shrinks ((shrinks_lock_file h).bind fun _ => (shrinks_the_file h).bind
            fun _ => (shrinks_put_file h _).bind fun _ =>
              keeps_ite (fun _ => ?_) fun _ => shrinks_unlock_file h)
          exact (shrinks_modify fun _ => ⟨rfl, rfl, rfl⟩).bind fun _ =>
            (shrinks_unref_fs_node _).bind fun _ => shrinks_unref_fs.bind fun _ =>
              shrinks_put_file h none
  | walk base path => exact (kept_walk_path base path).bind fun _ => keeps_pure _
  | drop n => exact kept_of_shrinks (shrinks_unref_fs_node n)

/-- After every run, the nodes in memory are linked as on the disc. -/
theorem iso_tree_reachable {w : W} {okModes : UInt32} {rootLock : Bool} {rootName : Name}
    (h : Reachable (isoRuns disc lower m
      (makeFs (isoMake tree.root w) okModes rootLock rootName)) s) : IsoTree tree lower s := by
  refine Reachable.induct (motive := IsoTree tree lower) (fun s hinit => ?_)
    (fun s s' hs hstep => ?_) h
  · subst hinit
    refine ⟨fun n nd hn => ?_, fun n data hdata => ?_, fun p pd hp e he => ?_⟩
    · obtain ⟨rfl, -⟩ := make_fs_node _ okModes rootLock rootName hn
      exact Nat.zero_lt_one
    · change Function.update (fun _ => none) fsRoot _ n = some data at hdata
      by_cases hroot : n = fsRoot
      · rw [hroot, Function.update_self] at hdata
        cases hdata
        exact ⟨[], .root⟩
      · rw [Function.update_of_ne hroot] at hdata
        cases hdata
    · obtain ⟨-, rfl⟩ := make_fs_node _ okModes rootLock rootName hp
      cases he
  · obtain ⟨request, hrun⟩ := hstep
    exact (iso_request_kept request s () s' hrun hs).1

/-- For every directory tree on a disc, every directory in memory after any run, and every path:
the node that the path leads to is below the directory just when the address of the directory,
followed by the path, still begins with that address once every name of the parent record has
taken the name before it away. -/
theorem iso_confined_iff {w : W} {okModes : UInt32} {rootLock : Bool} {rootName : Name}
    (h : Reachable (isoRuns disc lower m
      (makeFs (isoMake tree.root w) okModes rootLock rootName)) s)
    {base : NodeId} {a : IsoNode} (ha : s.driver.nodes base = some a) (hdir : a.isDir = true) :
    ∃ address, Located tree lower (.dir a.extent) address ∧ ∀ path n s',
      fsWalkPath (isoDriver disc lower m) base path s = .ok (some n, s') →
      ∃ b, s'.driver.nodes n = some b ∧
        (Below disc a.extent b.entity ↔ address <:+ normalize address (pathItems path)) := by
  have hs := iso_tree_reachable h
  obtain ⟨address, hlocated⟩ := hs.located base a ha
  rw [IsoNode.entity_of_dir hdir] at hlocated
  refine ⟨address, hlocated, fun path n s' hrun => ?_⟩
  have hentity := IsoNode.entity_of_dir hdir
  obtain ⟨b, hb, hblocated⟩ := (fs_walk_path_walked hrun hs).leads n a address rfl ha
    (hentity ▸ hlocated)
  exact ⟨b, hb, below_iff_suffix hlocated hblocated⟩

end Linked

section TwoDirectories

/-- A directory record with a name of one byte, for an extent of one block. -/
def smallRecord (lba name : UInt8) : List UInt8 :=
  [34, 0, lba, 0, 0, 0, 0, 0, 0, 0, 0, 8, 0, 0, 0, 0, 0, 0, 0, 0, 0, 0, 0, 0, 0, 2, 0, 0, 0, 0, 0,
    0, 1, name]

/-- A root directory with one directory `A`, which is empty. Behind the last record of each stand
zeros up to the end of the block. -/
def twoDirectories : Disc := fun i =>
  if i < 43008 then
    (smallRecord 20 0 ++ smallRecord 20 1 ++ smallRecord 21 65).getD (i - 40960).toNat 0
  else (smallRecord 21 0 ++ smallRecord 20 1).getD (i - 43008).toNat 0

/-- The root of the disc. -/
def rootExtent : Extent := ⟨20, 2048⟩

/-- The directory `A`. -/
def subExtent : Extent := ⟨21, 2048⟩

theorem root_visited {pos : UInt32} (h : Visited twoDirectories rootExtent pos) :
    pos = 0 ∨ pos = 34 ∨ pos = 68 ∨ pos = 102 := by
  induction h with
  | first => exact .inl rfl
  | next _ hlen _ ih =>
      rcases ih with rfl | rfl | rfl | rfl
      · exact .inr (.inl rfl)
      · exact .inr (.inr (.inl rfl))
      · exact .inr (.inr (.inr rfl))
      · exact absurd (by decide) hlen

theorem sub_visited {pos : UInt32} (h : Visited twoDirectories subExtent pos) :
    pos = 0 ∨ pos = 34 ∨ pos = 68 := by
  induction h with
  | first => exact .inl rfl
  | next _ hlen _ ih =>
      rcases ih with rfl | rfl | rfl
      · exact .inr (.inl rfl)
      · exact .inr (.inr rfl)
      · exact absurd (by decide) hlen

theorem root_listed {pos : UInt32} (h : Listed twoDirectories rootExtent pos) : pos = 68 := by
  rcases root_visited h.visited with rfl | rfl | rfl | rfl
  · exact absurd rfl h.notSelf
  · exact absurd (by rfl) h.notUp
  · rfl
  · exact absurd (by decide) h.record

theorem sub_not_listed {pos : UInt32} (h : Listed twoDirectories subExtent pos) : False := by
  rcases sub_visited h.visited with rfl | rfl | rfl
  · exact h.notSelf rfl
  · exact h.notUp (by rfl)
  · exact h.record (by decide)

/-- The tree of the disc. -/
def twoDirectoriesTree : DirectoryTree twoDirectories where
  root := rootExtent
  Dir := fun e => e = rootExtent ∨ e = subExtent
  parent := fun _ => rootExtent
  rootDir := .inl rfl
  parentRoot := rfl
  self := by
    rintro e (rfl | rfl)
    · exact ⟨by decide, by decide, by decide, by decide, by decide, by decide⟩
    · exact ⟨by decide, by decide, by decide, by decide, by decide, by decide⟩
  up := by
    rintro e (rfl | rfl)
    · exact ⟨by decide, by decide, by decide, by decide, by decide, by decide⟩
    · exact ⟨by decide, by decide, by decide, by decide, by decide, by decide⟩
  inside := by
    rintro e (rfl | rfl) pos hpos
    · rcases root_visited hpos with rfl | rfl | rfl | rfl <;> decide
    · rcases sub_visited hpos with rfl | rfl | rfl <;> decide
  child := by
    rintro e (rfl | rfl) pos hpos _
    · obtain rfl := root_listed hpos
      exact ⟨.inr (by decide), rfl, by decide⟩
    · exact (sub_not_listed hpos).elim
  once := by
    rintro e (rfl | rfl) pos pos' hpos hpos' - - -
    · rw [root_listed hpos, root_listed hpos']
    · exact (sub_not_listed hpos).elim

/-- A kernel on which nothing fails. -/
def IsoMachine.steady : IsoMachine Unit where
  pagerRead := fun w => (true, w)
  malloc := fun w => (true, w)
  newVfsPager := fun w => (true, w)
  stale := fun _ _ => 0

/-- Nothing is below `A`. -/
theorem below_sub {x : Entity} (h : Below twoDirectories subExtent x) : x = .dir subExtent := by
  induction h with
  | self => rfl
  | child _ hlisted ih =>
      cases ih
      exact (sub_not_listed hlisted).elim

theorem sub_open_checked :
    (match (IsoRequest.call (.open [65] fmReaddir)).run (isoDriver twoDirectories false .steady)
        (makeFs (isoMake twoDirectoriesTree.root ()) fmReaddir false []) with
    | .ok (_, s) => s.driver.nodes 1 == some ⟨true, subExtent, rootExtent, 68⟩ &&
        match fsWalkPath (isoDriver twoDirectories false .steady) 1 [1] s with
        | .ok (some n, s') => s'.driver.nodes n == some ⟨true, rootExtent, subExtent, 34⟩
        | _ => false
    | .error _ => false) = true := by
  decide +kernel

/-- The file system after `A` has been opened, and where the byte `1` leads from there. -/
theorem sub_opened : ∃ s a, Reachable (isoRuns twoDirectories false .steady
      (makeFs (isoMake twoDirectoriesTree.root ()) fmReaddir false [])) s ∧
    s.driver.nodes 1 = some a ∧ a.isDir = true ∧ a.extent = subExtent ∧
    ∃ n s' b, fsWalkPath (isoDriver twoDirectories false .steady) 1 [1] s = .ok (some n, s') ∧
      s'.driver.nodes n = some b ∧ b.entity = .dir rootExtent := by
  have hrun := sub_open_checked
  generalize hopen : (IsoRequest.call (.open [65] fmReaddir)).run
    (isoDriver twoDirectories false .steady)
    (makeFs (isoMake twoDirectoriesTree.root ()) fmReaddir false []) = opened at hrun
  cases opened with
  | error stop => cases hrun
  | ok result =>
      obtain ⟨_, s⟩ := result
      simp only [Bool.and_eq_true, beq_iff_eq] at hrun
      obtain ⟨ha, hwalk⟩ := hrun
      refine ⟨s, _, .step (.init rfl) ⟨_, hopen⟩, ha, rfl, rfl, ?_⟩
      generalize hwalked : fsWalkPath (isoDriver twoDirectories false .steady) 1 [1] s = walked
        at hwalk
      cases walked with
      | error stop => cases hwalk
      | ok result =>
          obtain ⟨found, s'⟩ := result
          cases found with
          | none => cases hwalk
          | some n => exact ⟨n, s', _, rfl, beq_iff_eq.mp hwalk, rfl⟩

/-- `iso_confined_iff` on that file system. -/
theorem iso_confined_iff_sub : ∃ s a, s.driver.nodes 1 = some a ∧
    ∃ address, Located twoDirectoriesTree false (.dir a.extent) address ∧ ∀ path n s',
      fsWalkPath (isoDriver twoDirectories false .steady) 1 path s = .ok (some n, s') →
      ∃ b, s'.driver.nodes n = some b ∧
        (Below twoDirectories a.extent b.entity ↔
          address <:+ normalize address (pathItems path)) := by
  obtain ⟨s, a, hreach, ha, hdir, -⟩ := sub_opened
  exact ⟨s, a, ha, iso_confined_iff hreach ha hdir⟩

/-- The byte `1` leads from `A` to the root. -/
theorem parent_reached :
    ¬ ∀ s, Reachable (isoRuns twoDirectories false .steady
        (makeFs (isoMake twoDirectoriesTree.root ()) fmReaddir false [])) s →
      ∀ base a, s.driver.nodes base = some a → a.isDir = true → ∀ path n s',
        fsWalkPath (isoDriver twoDirectories false .steady) base path s = .ok (some n, s') →
        ∀ b, s'.driver.nodes n = some b → Below twoDirectories a.extent b.entity := by
  intro hclaim
  obtain ⟨s, a, hreach, ha, hdir, hsub, n, s', b, hwalk, hb, hroot⟩ := sub_opened
  have hbelow := hclaim s hreach 1 a ha hdir [1] n s' hwalk b hb
  rw [hsub, hroot] at hbelow
  exact absurd (below_sub hbelow) (by decide)

end TwoDirectories

end Kogata.Kernel
