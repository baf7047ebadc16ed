import Kogata.Kernel.FileSystems
import Kogata.Kernel.VfsMoved
import Kogata.Lib.Ancestry

/-!
# Calls that wait for themselves

A call of the file system code that is alone waits for a mutex only if it has taken it itself. No
call does so as long as no node is its own ancestor: `unref_fs_node` takes the mutexes of a node
and of its ancestors, and a walk those of a directory and of a child. `fs_move` breaks the rule
itself, where the two directories are one or the new one is the node that is moved, and its
result breaks it where a node is moved below itself.
-/

namespace Kogata.Kernel

open Lib.Ancestry Lib.Effect Lib.Run Relation

variable {D : Type}

/-- The call stops in another way than in front of a mutex that it has taken, or in a recursion
without an end. -/
def Halt.Ordinary (halt : Halt) : Prop :=
  halt ≠ .deadlock ∧ halt ≠ .diverge

theorem ordinary_wild : Halt.wild.Ordinary := ⟨nofun, nofun⟩

theorem ordinary_panic : Halt.panic.Ordinary := ⟨nofun, nofun⟩

/-- The node `p` is the parent of `c`. -/
def Vfs.Parent (s : Vfs D) (c p : NodeId) : Prop :=
  ∃ cd, s.node c = some cd ∧ cd.parent = some p

/-- The call has the mutexes of the nodes `locked`, and no others of nodes and file systems are
taken. No node is its own ancestor or in its own table. The handles are `files`. -/
structure Hierarchy (s : Vfs D) (locked : List NodeId) (files : HandleId → Option OpenFile) :
    Prop where
  lock : ∀ n nd, s.node n = some nd → nd.lock = true → n ∈ locked
  old : ∀ n nd, s.node n = some nd → n < s.nextNode
  parent : ∀ n nd p, s.node n = some nd → nd.parent = some p → p < s.nextNode
  entry : ∀ n nd, s.node n = some nd → ∀ e ∈ nd.entries, e.2 ≠ n
  acyclic : Acyclic s.Parent
  fs : ∀ fs, s.fs = some fs → fs.lock = false
  files : s.handle = files
  nodup : locked.Nodup
  bound : ∀ n ∈ locked, n < s.nextNode

section States

variable {s : Vfs D} {locked : List NodeId} {files : HandleId → Option OpenFile} {n p : NodeId}
  {nd nd' : FsNode}

theorem parent_put (hn : s.node n = some nd) (hparent : nd'.parent = nd.parent) :
    (s.put n (some nd')).Parent = s.Parent := by
  funext a b
  refine propext ⟨fun ⟨cd, hcd, hb⟩ => ?_, fun ⟨cd, hcd, hb⟩ => ?_⟩ <;> by_cases ha : a = n
  · subst ha
    rw [Vfs.put_node_self] at hcd
    cases hcd
    exact ⟨nd, hn, hparent.symm.trans hb⟩
  · rw [Vfs.put_node_of_ne s ha] at hcd
    exact ⟨cd, hcd, hb⟩
  · subst ha
    cases hn.symm.trans hcd
    exact ⟨nd', Vfs.put_node_self .., hparent.trans hb⟩
  · exact ⟨cd, (Vfs.put_node_of_ne s ha _).trans hcd, hb⟩

namespace Hierarchy

variable (h : Hierarchy s locked files)

include h

theorem perm {locked' : List NodeId} (hperm : locked.Perm locked') :
    Hierarchy s locked' files :=
  { h with
    lock := fun n nd hn hlock => hperm.mem_iff.mp (h.lock n nd hn hlock)
    nodup := hperm.nodup_iff.mp h.nodup
    bound := fun n hn => h.bound n (hperm.mem_iff.mpr hn) }

theorem unlocked (hnot : n ∉ locked) (nd : FsNode) (hn : s.node n = some nd) : nd.lock = false :=
  Bool.eq_false_iff.mpr fun hlock => hnot (h.lock n nd hn hlock)

/-- A node that stays where it is gets other fields. -/
theorem put {locked' : List NodeId} (hn : s.node n = some nd) (hparent : nd'.parent = nd.parent)
    (hentry : ∀ e ∈ nd'.entries, e.2 ≠ n) (hlock : nd'.lock = true → n ∈ locked')
    (hother : ∀ m ∈ locked, m ≠ n → m ∈ locked') (hnodup : locked'.Nodup)
    (hbound : ∀ m ∈ locked', m ∈ locked ∨ m = n) :
    Hierarchy (s.put n (some nd')) locked' files where
  lock := fun m md hm hmlock => by
    by_cases hmn : m = n
    · subst hmn
      rw [Vfs.put_node_self] at hm
      cases hm
      exact hlock hmlock
    · rw [Vfs.put_node_of_ne s hmn] at hm
      exact hother m (h.lock m md hm hmlock) hmn
  old := fun m md hm => by
    by_cases hmn : m = n
    · exact hmn ▸ h.old n nd hn
    · rw [Vfs.put_node_of_ne s hmn] at hm
      exact h.old m md hm
  parent := fun m md p hm hp => by
    by_cases hmn : m = n
    · subst hmn
      rw [Vfs.put_node_self] at hm
      cases hm
      exact h.parent m nd p hn (hparent.symm.trans hp)
    · rw [Vfs.put_node_of_ne s hmn] at hm
      exact h.parent m md p hm hp
  entry := fun m md hm => by
    by_cases hmn : m = n
    · subst hmn
      rw [Vfs.put_node_self] at hm
      cases hm
      exact hentry
    · rw [Vfs.put_node_of_ne s hmn] at hm
      exact h.entry m md hm
  acyclic := by
    rw [parent_put hn hparent]
    exact h.acyclic
  fs := h.fs
  files := h.files
  nodup := hnodup
  bound := fun m hm => by
    rcases hbound m hm with hm | rfl
    · exact h.bound m hm
    · exact h.old m nd hn

/-- The mutex of a node is taken. -/
theorem take (hn : s.node n = some nd) (hnot : n ∉ locked) :
    Hierarchy (s.put n (some { nd with lock := true })) (n :: locked) files :=
  h.put hn rfl (h.entry n nd hn) (fun _ => List.mem_cons_self)
    (fun _ hm _ => List.mem_cons_of_mem n hm) (List.nodup_cons.mpr ⟨hnot, h.nodup⟩)
    fun _ hm => (List.mem_cons.mp hm).symm

/-- A node that is in place and has no more bindings than before. -/
theorem keep (nd' : FsNode) (hn : s.node n = some nd) (hparent : nd'.parent = nd.parent)
    (hlock : nd'.lock = nd.lock) (hentry : ∀ e ∈ nd'.entries, e.2 ≠ n) :
    Hierarchy (s.put n (some nd')) locked files :=
  h.put hn hparent hentry (fun hlocked => h.lock n nd hn (hlock.symm.trans hlocked))
    (fun _ hm _ => hm) h.nodup fun _ => .inl

theorem driver (driver : D) : Hierarchy { s with driver := driver } locked files :=
  ⟨h.lock, h.old, h.parent, h.entry, h.acyclic, h.fs, h.files, h.nodup, h.bound⟩

theorem put_fs {fs : Option Fs} (hfs : ∀ f, fs = some f → f.lock = false) :
    Hierarchy { s with fs := fs } locked files :=
  ⟨h.lock, h.old, h.parent, h.entry, h.acyclic, hfs, h.files, h.nodup, h.bound⟩

end Hierarchy

/-- A mutex is given back. -/
theorem Hierarchy.release (h : Hierarchy s (n :: locked) files) (hn : s.node n = some nd) :
    Hierarchy (s.put n (some { nd with lock := false })) locked files :=
  h.put hn rfl (h.entry n nd hn) (fun hlock => absurd hlock Bool.false_ne_true)
    (fun _ hm hmn => (List.mem_cons.mp hm).resolve_left hmn) (List.nodup_cons.mp h.nodup).2
    fun _ hm => .inl (List.mem_cons_of_mem n hm)

/-- A node is freed, and its mutex with it. -/
theorem Hierarchy.gone (h : Hierarchy s locked files) (n : NodeId) {locked' : List NodeId}
    (hother : ∀ m ∈ locked, m ≠ n → m ∈ locked') (hnodup : locked'.Nodup)
    (hbound : ∀ m ∈ locked', m ∈ locked) : Hierarchy (s.put n none) locked' files := by
  have hback : ∀ {m md}, (s.put n none).node m = some md → m ≠ n ∧ s.node m = some md := by
    intro m md hm
    by_cases hmn : m = n
    · subst hmn
      rw [Vfs.put_node_self] at hm
      cases hm
    · exact ⟨hmn, (Vfs.put_node_of_ne s hmn _).symm.trans hm⟩
  exact ⟨fun m md hm hlock => hother m (h.lock m md (hback hm).2 hlock) (hback hm).1,
    fun m md hm => h.old m md (hback hm).2, fun m md p hm => h.parent m md p (hback hm).2,
    fun m md hm => h.entry m md (hback hm).2,
    h.acyclic.anti fun a b ⟨cd, hcd, hb⟩ => ⟨cd, (hback hcd).2, hb⟩, h.fs, h.files, hnodup,
    fun m hm => h.bound m (hbound m hm)⟩

/-- A new node below a node that has been there before. -/
theorem Hierarchy.fresh (h : Hierarchy s locked files) (hp : p < s.nextNode) (name : Name) :
    Hierarchy { s.put s.nextNode (some (.fresh p name)) with nextNode := s.nextNode + 1 }
      locked files := by
  have hback : ∀ {m md}, (s.put s.nextNode (some (.fresh p name))).node m = some md →
      m = s.nextNode ∧ md = .fresh p name ∨ m ≠ s.nextNode ∧ s.node m = some md := by
    intro m md hm
    by_cases hmn : m = s.nextNode
    · rw [hmn, Vfs.put_node_self] at hm
      exact .inl ⟨hmn, (Option.some.inj hm).symm⟩
    · exact .inr ⟨hmn, (Vfs.put_node_of_ne s hmn _).symm.trans hm⟩
  refine ⟨fun m md hm hlock => ?_, fun m md hm => ?_, fun m md q hm hq => ?_, fun m md hm => ?_,
    h.acyclic.leaf (c := s.nextNode) (fun m hm => ?_) fun m q hm hq => ?_, h.fs, h.files, h.nodup,
    fun m hm => Nat.lt_succ_of_lt (h.bound m hm)⟩
  · rcases hback hm with ⟨rfl, rfl⟩ | ⟨-, hm⟩
    · cases hlock
    · exact h.lock m md hm hlock
  · rcases hback hm with ⟨rfl, -⟩ | ⟨-, hm⟩
    · exact Nat.lt_succ_self _
    · exact Nat.lt_succ_of_lt (h.old m md hm)
  · rcases hback hm with ⟨rfl, rfl⟩ | ⟨-, hm⟩
    · cases hq
      exact Nat.lt_succ_of_lt hp
    · exact Nat.lt_succ_of_lt (h.parent m md q hm hq)
  · rcases hback hm with ⟨rfl, rfl⟩ | ⟨-, hm⟩
    · exact fun e he => absurd he List.not_mem_nil
    · exact h.entry m md hm
  · obtain ⟨cd, hcd, hparent⟩ := hm
    rcases hback hcd with ⟨rfl, rfl⟩ | ⟨-, hcd⟩
    · cases hparent
      exact Nat.lt_irrefl _ hp
    · exact Nat.lt_irrefl _ (h.parent m cd _ hcd hparent)
  · obtain ⟨cd, hcd, hparent⟩ := hq
    rcases hback hcd with ⟨rfl, -⟩ | ⟨-, hcd⟩
    · exact absurd rfl hm
    · exact ⟨cd, hcd, hparent⟩

end States

section Primitives

variable {s : Vfs D} {locked : List NodeId} {files : HandleId → Option OpenFile} {n p : NodeId}

theorem within_the_node : Within Halt.Ordinary (theNode n) s fun nd s' =>
    s.node n = some nd ∧ s' = s := by
  cases hn : s.node n with
  | none =>
      refine within_of_stop ?_ ordinary_wild
      rw [theNode, run_get_bind, hn]
      rfl
  | some nd => exact within_of_run (the_node_run hn) ⟨rfl, rfl⟩

/-- No node comes, goes to another parent or changes its number. -/
structure Fixed (s s' : Vfs D) : Prop where
  parent : s'.Parent = s.Parent
  nextNode : s'.nextNode = s.nextNode

theorem Fixed.trans {s' s'' : Vfs D} (h : Fixed s s') (h' : Fixed s' s'') : Fixed s s'' :=
  ⟨h'.parent.trans h.parent, h'.nextNode.trans h.nextNode⟩

/-- A mutex that is not among those that the call has is free. -/
theorem within_lock_node (h : Hierarchy s locked files) (hnot : n ∉ locked) :
    Within Halt.Ordinary (lockNode n) s fun _ s' =>
      Hierarchy s' (n :: locked) files ∧ Fixed s s' := by
  refine within_the_node.bind fun nd s' hnd => ?_
  obtain ⟨hn, rfl⟩ := hnd
  rw [h.unlocked hnot nd hn]
  refine within_the_node.bind fun nd' s₁ hnd' => ?_
  obtain ⟨hn', rfl⟩ := hnd'
  exact within_of_run rfl ⟨h.take hn' hnot, parent_put hn' rfl, rfl⟩

theorem within_unlock_node (h : Hierarchy s (n :: locked) files) :
    Within Halt.Ordinary (unlockNode n) s fun _ s' => Hierarchy s' locked files ∧ Fixed s s' := by
  refine within_the_node.bind fun nd s' hnd => ?_
  obtain ⟨hn, rfl⟩ := hnd
  exact within_of_run rfl ⟨h.release hn, parent_put hn rfl, rfl⟩

/-- A change of a node that stays where it is. -/
theorem within_change_node (change : FsNode → FsNode) (h : Hierarchy s locked files)
    (hparent : ∀ nd, (change nd).parent = nd.parent) (hlock : ∀ nd, (change nd).lock = nd.lock)
    (hentry : ∀ nd, ∀ e ∈ (change nd).entries, e ∈ nd.entries ∨ e.2 ≠ n) :
    Within Halt.Ordinary (changeNode n change) s fun _ s' =>
      Hierarchy s' locked files ∧ Fixed s s' := by
  refine within_the_node.bind fun nd s' hnd => ?_
  obtain ⟨hn, rfl⟩ := hnd
  refine within_of_run rfl ⟨h.keep _ hn (hparent nd) (hlock nd) fun e he => ?_,
    parent_put hn (hparent nd), rfl⟩
  exact (hentry nd e he).elim (h.entry n nd hn e) id

theorem within_the_fs : Within Halt.Ordinary (theFs (D := D)) s fun fs s' =>
    s.fs = some fs ∧ s' = s := by
  cases hfs : s.fs with
  | none =>
      refine within_of_stop ?_ ordinary_wild
      rw [theFs, run_get_bind, hfs]
      rfl
  | some fs => exact within_of_run (the_fs_run hfs) ⟨rfl, rfl⟩

theorem within_assert {cond : Bool} :
    Within Halt.Ordinary (assertVfs cond : VfsCall D Unit) s fun _ s' => s' = s := by
  rw [assertVfs]
  exact within_ite (fun _ => within_pure rfl) fun _ => within_throw ordinary_panic

section

variable (h : Hierarchy s locked files)

include h

theorem within_tell_driver {change : D → D} :
    Within Halt.Ordinary (tellDriver change) s fun _ s' => Hierarchy s' locked files ∧ Fixed s s' :=
  within_of_run rfl ⟨h.driver _, rfl, rfl⟩

theorem within_ask_driver {α : Type} {question : D → α × D} :
    Within Halt.Ordinary (askDriver question) s fun answer s' =>
      (Hierarchy s' locked files ∧ Fixed s s') ∧ answer = (question s.driver).1 :=
  within_of_run rfl ⟨⟨h.driver _, rfl, rfl⟩, rfl⟩

/-- The mutex of a file system is given back before the call comes back, if there is still one. -/
theorem within_lock_fs : Within Halt.Ordinary (lockFs (D := D)) s
    fun _ s' => ∃ fs, s.fs = some fs ∧ s' = { s with fs := some { fs with lock := true } } := by
  refine within_the_fs.bind fun fs s' hfs => ?_
  obtain ⟨hfs, rfl⟩ := hfs
  rw [h.fs fs hfs]
  exact within_of_run rfl ⟨fs, hfs, rfl⟩

theorem within_ref_fs :
    Within Halt.Ordinary (refFs (D := D)) s fun _ s' => Hierarchy s' locked files := by
  refine (within_lock_fs h).bind fun _ s₁ hs₁ => ?_
  obtain ⟨fs, -, rfl⟩ := hs₁
  refine within_the_fs.bind fun fs₁ s₂ hs₂ => ?_
  obtain ⟨-, rfl⟩ := hs₂
  exact within_of_run rfl (h.put_fs fun f hf => by cases hf; rfl)

end

theorem within_unref_fs (d : Driver D) (h : Hierarchy s locked files) :
    Within Halt.Ordinary (unrefFs d) s fun _ s' => Hierarchy s' locked files := by
  refine (within_lock_fs h).bind fun _ s₁ hs₁ => ?_
  obtain ⟨fs, -, rfl⟩ := hs₁
  refine within_the_fs.bind fun fs₁ s₂ hs₂ => ?_
  obtain ⟨-, rfl⟩ := hs₂
  change Within Halt.Ordinary (if fs₁.refs - 1 = 0 then _ else unlockFs) _ _
  refine within_ite (fun _ => ?_) fun _ =>
    within_of_run rfl (h.put_fs fun f hf => by cases hf; rfl)
  refine within_the_node.bind fun nd s₄ hs₄ => ?_
  obtain ⟨-, rfl⟩ := hs₄
  refine within_assert.bind fun _ s₅ hs₅ => ?_
  subst hs₅
  exact within_of_run rfl ((h.driver _).put_fs fun f hf => by cases hf)

/-- `ref_fs_node` of a node whose mutex is free. -/
theorem within_ref_fs_node (h : Hierarchy s locked files) (hnot : n ∉ locked) :
    Within Halt.Ordinary (refFsNode n) s fun _ s' => Hierarchy s' locked files := by
  refine (within_lock_node h hnot).bind fun _ s₁ hs₁ => ?_
  refine (within_change_node (fun nd => { nd with refs := nd.refs + 1 }) hs₁.1 (fun _ => rfl)
    (fun _ => rfl) fun _ _ he => .inl he).bind fun _ s₂ hs₂ => ?_
  exact (within_unlock_node hs₂.1).mono fun _ _ hs₃ => hs₃.1

/-- The call has no more mutexes than there have been nodes. -/
theorem Hierarchy.length_le (h : Hierarchy s locked files) : locked.length ≤ s.nextNode := by
  have hsub := h.nodup.subperm fun n hn => List.mem_range.mpr (h.bound n hn)
  exact hsub.length_le.trans_eq List.length_range

theorem within_remove_child (h : Hierarchy s locked files) {name : Name} :
    Within Halt.Ordinary (removeChild p name) s fun _ s' =>
      Hierarchy s' locked files ∧ Fixed s s' := by
  refine within_the_node.bind fun nd s₁ hs₁ => ?_
  obtain ⟨hn, rfl⟩ := hs₁
  cases hchildren : nd.children with
  | none => exact within_throw ordinary_wild
  | some entries =>
      refine within_of_run rfl ⟨h.keep _ hn rfl rfl fun e he => ?_, parent_put hn rfl, rfl⟩
      refine h.entry p nd hn e ?_
      rw [FsNode.entries, hchildren]
      exact (List.mem_filter.mp he).1

/-- `unref_fs_node`, by induction on the depth: the call has the mutexes of nodes that are below
the node. -/
theorem within_unref_up_to (d : Driver D) (depth : Nat) (h : Hierarchy s locked files)
    (hbelow : ∀ m ∈ locked, TransGen s.Parent m n) (hdepth : s.nextNode < depth + locked.length) :
    Within Halt.Ordinary (unrefUpTo d depth n) s fun _ s' => Hierarchy s' locked files := by
  induction depth generalizing s locked n with
  | zero => exact absurd h.length_le (by omega)
  | succ depth ih =>
      have hnot : n ∉ locked := fun hmem => h.acyclic n (hbelow n hmem)
      unfold unrefUpTo
      refine (within_lock_node h hnot).bind fun _ s₁ hs₁ => ?_
      obtain ⟨hs₁, hfixed₁⟩ := hs₁
      refine (within_change_node (fun nd => { nd with refs := nd.refs - 1 }) hs₁ (fun _ => rfl)
        (fun _ => rfl) fun _ _ he => .inl he).bind fun _ s₂ hs₂ => ?_
      obtain ⟨hs₂, hfixed₂⟩ := hs₂
      refine within_the_node.bind fun nd s₃ hs₃ => ?_
      obtain ⟨hn, rfl⟩ := hs₃
      refine within_ite (fun _ => ?_) fun _ =>
        (within_unlock_node hs₂).mono fun _ _ hs₃ => hs₃.1
      refine within_assert.bind fun _ s₃ hs₃ => ?_
      subst hs₃
      cases hparent : nd.parent with
      | none => exact within_throw ordinary_panic
      | some p =>
          have hup : s₃.Parent n p := ⟨nd, hn, hparent⟩
          have hbelow₂ : ∀ m ∈ n :: locked, TransGen s₃.Parent m p := by
            intro m hm
            rw [hfixed₂.parent, hfixed₁.parent] at hup ⊢
            rcases List.mem_cons.mp hm with rfl | hm
            · exact .single hup
            · exact (hbelow m hm).tail hup
          have hp : p ∉ n :: locked := fun hmem => hs₂.acyclic p (hbelow₂ p hmem)
          refine (within_lock_node hs₂ hp).bind fun _ s₄ hs₄ => ?_
          obtain ⟨hs₄, hfixed₄⟩ := hs₄
          refine (within_remove_child hs₄).bind fun _ s₅ hs₅ => ?_
          obtain ⟨hs₅, hfixed₅⟩ := hs₅
          refine (within_tell_driver hs₅).bind fun _ s₆ hs₆ => ?_
          obtain ⟨hs₆, hfixed₆⟩ := hs₆
          refine (within_unlock_node hs₆).bind fun _ s₇ hs₇ => ?_
          obtain ⟨hs₇, hfixed₇⟩ := hs₇
          have hfixed := ((hfixed₄.trans hfixed₅).trans hfixed₆).trans hfixed₇
          have hnext : s₇.nextNode < depth + (n :: locked).length := by
            rw [hfixed.nextNode, hfixed₂.nextNode, hfixed₁.nextNode, List.length_cons]
            omega
          refine (ih hs₇ (fun m hm => ?_) hnext).bind fun _ s₈ hs₈ => ?_
          · rw [hfixed.parent]
            exact hbelow₂ m hm
          refine (within_unref_fs d hs₈).bind fun _ s₉ hs₉ => ?_
          refine within_the_node.bind fun last s₁₀ hs₁₀ => ?_
          obtain ⟨-, rfl⟩ := hs₁₀
          refine within_assert.bind fun _ s₁₁ hs₁₁ => ?_
          subst hs₁₁
          exact within_of_run rfl (hs₉.gone n
            (fun _ hm hmn => (List.mem_cons.mp hm).resolve_left hmn)
            (List.nodup_cons.mp hs₉.nodup).2 fun _ => List.mem_cons_of_mem n)

theorem within_unref_fs_node (d : Driver D) (h : Hierarchy s [] files) :
    Within Halt.Ordinary (unrefFsNode d n) s fun _ s' => Hierarchy s' [] files := by
  have hrun := within_unref_up_to d (s.nextNode + 1) h (fun m hm => absurd hm List.not_mem_nil)
    (by rw [List.length_nil]; omega : s.nextNode < s.nextNode + 1 + ([] : List NodeId).length)
    (n := n)
  rwa [Within, unref_fs_node_eq]

theorem within_put_node {nd : Option FsNode} (h : Hierarchy (s.put n nd) locked files) :
    Within Halt.Ordinary (putNode n nd) s fun _ s' => Hierarchy s' locked files :=
  within_of_run rfl h

theorem within_new_node (h : Hierarchy s locked files) (hp : p < s.nextNode) (name : Name) :
    Within Halt.Ordinary (newNode (.fresh p name)) s fun n s' =>
      n = s.nextNode ∧ Hierarchy s' locked files :=
  within_of_run rfl ⟨rfl, h.fresh hp name⟩

/-- `fs_walk_one`: a child is not the directory that its mutex is taken behind. -/
theorem within_walk_one (d : Driver D) (h : Hierarchy s [] files) (base : NodeId) (file : Name) :
    Within Halt.Ordinary (fsWalkOne d base file) s fun _ s' => Hierarchy s' [] files := by
  refine (within_lock_node h List.not_mem_nil).bind fun _ s₁ hs₁ => ?_
  obtain ⟨hs₁, -⟩ := hs₁
  refine within_the_node.bind fun bd s₂ hs₂ => ?_
  obtain ⟨hb, rfl⟩ := hs₂
  cases hfind : bd.find file with
  | some n =>
      have hne : n ∉ [base] := by
        rw [List.mem_singleton]
        exact hs₁.entry base bd hb (file, n) (Lib.Tally.mem_of_lookup hfind)
      refine (within_ref_fs_node hs₁ hne).bind fun _ s₃ hs₃ => ?_
      refine (within_unlock_node hs₃).bind fun _ s₄ hs₄ => ?_
      exact within_pure hs₄.1
  | none =>
      have hbase := hs₁.old base bd hb
      refine (within_new_node hs₁ hbase file).bind fun n s₃ hs₃ => ?_
      obtain ⟨hn, hs₃⟩ := hs₃
      refine (within_ask_driver hs₃).bind fun answer s₄ hs₄ => ?_
      obtain ⟨⟨hs₄, -⟩, -⟩ := hs₄
      refine within_ite (fun _ => ?_) fun _ => ?_
      · refine (within_change_node (fun nd => nd.bind file n) hs₄ (fun _ => rfl) (fun _ => rfl)
          fun nd e he => ?_).bind fun _ s₅ hs₅ => ?_
        · rcases List.mem_cons.mp he with rfl | he
          · exact .inr (Nat.ne_of_gt (hn ▸ hbase))
          · exact .inl (List.mem_filter.mp he).1
        refine (within_unlock_node hs₅.1).bind fun _ s₆ hs₆ => ?_
        refine (within_ref_fs_node hs₆.1 List.not_mem_nil).bind fun _ s₇ hs₇ => ?_
        refine (within_ref_fs hs₇).bind fun _ s₈ hs₈ => ?_
        exact within_pure hs₈
      · have hgone := hs₄.gone n (fun _ hm _ => hm) hs₄.nodup fun _ => id
        refine (within_put_node hgone).bind fun _ s₅ hs₅ => ?_
        refine (within_unlock_node hs₅).bind fun _ s₆ hs₆ => ?_
        exact within_pure hs₆.1

section Walks

variable {d : Driver D}

/-- One item of a walk, and the end of the reference to the node before it. -/
theorem within_walk_item {α : Type} (h : Hierarchy s [] files) {item : Name}
    {rest : Option NodeId → VfsCall D α} {post : α → Vfs D → Prop}
    (hrest : ∀ found s', Hierarchy s' [] files → Within Halt.Ordinary (rest found) s' post) :
    Within Halt.Ordinary (do
      let n2 ← fsWalkOne d n item
      unrefFsNode d n
      rest n2) s post :=
  (within_walk_one d h n item).bind fun found _ hs₁ =>
    (within_unref_fs_node d hs₁).bind fun _ s₂ hs₂ => hrest found s₂ hs₂

/-- A walk that gives up. -/
theorem within_give_up {α : Type} (h : Hierarchy s [] files) {a : α} :
    Within Halt.Ordinary (do unrefFsNode d n; return a) s fun _ s' => Hierarchy s' [] files :=
  (within_unref_fs_node d h).bind fun _ _ hs₁ => within_pure hs₁

theorem within_walk_items (items : List Name) (h : Hierarchy s [] files) :
    Within Halt.Ordinary (walkItems d n items) s fun _ s' => Hierarchy s' [] files := by
  fun_induction walkItems d n items generalizing s with
  | case1 => exact within_pure h
  | case2 => exact within_pure h
  | case3 => exact within_walk_item h fun _ _ hs' => within_pure hs'
  | case4 => exact within_give_up h
  | case5 => exact within_give_up h
  | case6 n item rest _ _ _ ih =>
      refine within_walk_item h fun found s₁ hs₁ => ?_
      cases found with
      | none => exact within_pure hs₁
      | some n2 => exact ih n2 hs₁

theorem within_walk_path (h : Hierarchy s [] files) (path : Name) :
    Within Halt.Ordinary (fsWalkPath d n path) s fun _ s' => Hierarchy s' [] files :=
  (within_ref_fs_node h List.not_mem_nil).bind fun _ _ hs₁ => within_walk_items _ hs₁

theorem within_walk_items_except_last (items : List Name) (h : Hierarchy s [] files) :
    Within Halt.Ordinary (walkItemsExceptLast d n items) s fun _ s' => Hierarchy s' [] files := by
  fun_induction walkItemsExceptLast d n items generalizing s with
  | case1 => exact within_pure h
  | case2 => exact within_give_up h
  | case3 => exact within_pure h
  | case4 => exact within_give_up h
  | case5 => exact within_give_up h
  | case6 => exact within_pure h
  | case7 n item rest _ _ _ _ ih =>
      refine within_walk_item h fun found s₁ hs₁ => ?_
      cases found with
      | none => exact within_pure hs₁
      | some n2 => exact ih n2 hs₁

theorem within_walk_path_except_last (h : Hierarchy s [] files) (path : Name) :
    Within Halt.Ordinary (fsWalkPathExceptLast d n path) s fun _ s' => Hierarchy s' [] files :=
  within_ite (fun _ => within_pure h) fun _ =>
    (within_ref_fs_node h List.not_mem_nil).bind fun _ _ hs₁ =>
      within_walk_items_except_last _ hs₁

/-- A node whose mutex is taken for one question to the driver. -/
theorem within_ask_locked {α β : Type} (h : Hierarchy s [] files) {question : D → α × D}
    {rest : α → VfsCall D β} {post : β → Vfs D → Prop}
    (hrest : ∀ answer s', Hierarchy s' [] files → Within Halt.Ordinary (rest answer) s' post) :
    Within Halt.Ordinary (do
      lockNode n
      let answer ← askDriver question
      unlockNode n
      rest answer) s post :=
  (within_lock_node h List.not_mem_nil).bind fun _ _ hs₁ =>
    (within_ask_driver hs₁.1).bind fun answer _ hs₂ =>
      (within_unlock_node hs₂.1.1).bind fun _ s₃ hs₃ => hrest answer s₃ hs₃.1

end Walks

section Calls

variable {d : FsDriver D} {okModes : UInt32} {root : NodeId} {file : Name}

section

variable (h : Hierarchy s [] files)

include h

theorem within_create_file (type : UInt32) :
    Within Halt.Ordinary (createFile d.toDriver okModes root file type) s
      fun _ s' => Hierarchy s' [] files := by
  refine within_ite (fun _ => within_pure h) fun _ => ?_
  refine (within_walk_path_except_last h file).bind fun found s₁ hs₁ => ?_
  cases found with
  | none => exact within_pure hs₁
  | some found => exact within_ask_locked hs₁ fun _ _ hs₂ => within_give_up hs₂

theorem within_delete_file :
    Within Halt.Ordinary (deleteFile d okModes root file) s
      fun _ s' => Hierarchy s' [] files := by
  refine within_ite (fun _ => within_pure h) fun _ => ?_
  refine (within_walk_path_except_last h file).bind fun found s₁ hs₁ => ?_
  cases found with
  | none => exact within_pure hs₁
  | some found =>
      refine within_the_node.bind fun nd s₂ hs₂ => ?_
      obtain ⟨-, rfl⟩ := hs₂
      refine within_ite (fun _ => within_pure hs₁) fun _ => ?_
      exact within_ask_locked hs₁ fun _ _ hs₂ => within_give_up hs₂

theorem within_stat_file :
    Within Halt.Ordinary (statFile d.toDriver root file) s fun _ s' => Hierarchy s' [] files := by
  refine (within_walk_path h file).bind fun found s₁ hs₁ => ?_
  cases found with
  | none => exact within_pure hs₁
  | some n => exact within_ask_locked hs₁ fun _ _ hs₂ => within_give_up hs₂

theorem within_node_to_open (mode : UInt32) :
    Within Halt.Ordinary (nodeToOpen d.toDriver okModes root file mode) s
      fun _ s' => Hierarchy s' [] files := by
  refine (within_walk_path h file).bind fun found s₁ hs₁ => ?_
  cases found with
  | some n => exact within_pure hs₁
  | none =>
      refine within_ite (fun _ => ?_) fun _ => within_pure hs₁
      refine (within_create_file hs₁ ftRegular).bind fun created s₂ hs₂ => ?_
      exact within_ite (fun _ => within_walk_path hs₂ file) fun _ => within_pure hs₂

end

end Calls

section Move

variable {d : MoveDriver D} {mem : MoveMemory} {okModes : UInt32} {root op np : NodeId}
  {old new on nn : Name} {t : Vfs D}

/-- `fs_move` has come to its two directories, with a driver that can move. -/
structure MoveArrives (d : MoveDriver D) (okModes : UInt32) (root : NodeId) (old new : Name)
    (s : Vfs D) (op : NodeId) (on : Name) (np : NodeId) (nn : Name) (t : Vfs D) : Prop where
  allowed : okModes &&& fmDmove ≠ 0
  walks : ∃ t₁, fsWalkPathExceptLast d.toDriver root old s = .ok (some (op, on), t₁) ∧
    fsWalkPathExceptLast d.toDriver root new t₁ = .ok (some (np, nn), t)
  canMove : d.canMove op t.driver = true

/-- The node `c` is moved below itself: `np` is below it, and neither the memory nor the table of
`np` nor the driver is against it. -/
structure MovesBelow (d : MoveDriver D) (mem : MoveMemory) (op : NodeId) (on : Name) (np : NodeId)
    (nn : Name) (t : Vfs D) (c : NodeId) : Prop where
  below : TransGen t.Parent np c
  strdup : mem.strdup = true
  item : mem.item = true
  table : t.hasTable np
  agrees : ¬ d.refuses op on np nn t.driver

/-- The directories are one, or the new one is the node that is moved or comes to be below it. -/
def MoveClashes (d : MoveDriver D) (mem : MoveMemory) (op : NodeId) (on : Name) (np : NodeId)
    (nn : Name) (t : Vfs D) : Prop :=
  op = np ∨ ∃ c, t.childOf op on = some c ∧ (c = np ∨ MovesBelow d mem op on np nn t c)

section

variable (h : Hierarchy s locked files)

include h

/-- The node `n` gets the parent `p`, which is neither the node nor below it. -/
theorem Hierarchy.adopt {c : NodeId} {cd : FsNode} {name : Name}
    (hc : s.node c = some cd) (hp : p < s.nextNode) (hnot : ¬ ReflTransGen s.Parent p c) :
    Hierarchy (s.put c (some { cd with name := name, parent := some p })) locked files := by
  have hback : ∀ {m md}, (s.put c (some { cd with name := name, parent := some p })).node m =
      some md → m = c ∧ md = { cd with name := name, parent := some p } ∨
        m ≠ c ∧ s.node m = some md := by
    intro m md hm
    by_cases hmc : m = c
    · rw [hmc, Vfs.put_node_self] at hm
      exact .inl ⟨hmc, (Option.some.inj hm).symm⟩
    · exact .inr ⟨hmc, (Vfs.put_node_of_ne s hmc _).symm.trans hm⟩
  refine ⟨fun m md hm hlock => ?_, fun m md hm => ?_, fun m md q hm hq => ?_, fun m md hm => ?_,
    h.acyclic.redirect (c := c) (p := p) (fun m q hm hq => ?_) (fun q hq => ?_) hnot, h.fs,
    h.files, h.nodup, h.bound⟩
  · rcases hback hm with ⟨rfl, rfl⟩ | ⟨-, hm⟩
    · exact h.lock m cd hc hlock
    · exact h.lock m md hm hlock
  · rcases hback hm with ⟨rfl, -⟩ | ⟨-, hm⟩
    · exact h.old m cd hc
    · exact h.old m md hm
  · rcases hback hm with ⟨rfl, rfl⟩ | ⟨-, hm⟩
    · cases hq
      exact hp
    · exact h.parent m md q hm hq
  · rcases hback hm with ⟨rfl, rfl⟩ | ⟨-, hm⟩
    · exact h.entry m cd hc
    · exact h.entry m md hm
  · obtain ⟨md, hmd, hparent⟩ := hq
    rcases hback hmd with ⟨rfl, -⟩ | ⟨-, hmd⟩
    · exact absurd rfl hm
    · exact ⟨md, hmd, hparent⟩
  · obtain ⟨md, hmd, hparent⟩ := hq
    rcases hback hmd with ⟨-, rfl⟩ | ⟨hne, -⟩
    · exact (Option.some.inj hparent).symm
    · exact absurd rfl hne

theorem within_adopt {c : NodeId} {name : Name}
    (hp : p < s.nextNode) (hnot : ¬ ReflTransGen s.Parent p c) :
    Within Halt.Ordinary (changeNode c fun nd => { nd with name := name, parent := some p }) s
      fun _ s' => Hierarchy s' locked files := by
  refine within_the_node.bind fun cd s₁ hs₁ => ?_
  obtain ⟨hc, rfl⟩ := hs₁
  exact within_of_run rfl (h.adopt hc hp hnot)

theorem within_add_child {c : NodeId} (hcn : c ≠ np) {item : Bool} :
    Within Halt.Ordinary (addChild np nn c item) s fun added s' =>
      (Hierarchy s' locked files ∧ Fixed s s') ∧ s'.driver = s.driver ∧
        (added = true → item = true ∧ s.hasTable np) := by
  refine within_ite (fun _ => within_pure ⟨⟨h, rfl, rfl⟩, rfl, nofun⟩) fun hitem => ?_
  refine within_the_node.bind fun nd s₁ hs₁ => ?_
  obtain ⟨hn, rfl⟩ := hs₁
  cases hchildren : nd.children with
  | none => exact within_throw ordinary_wild
  | some entries =>
      refine within_of_run rfl ⟨⟨h.keep _ hn rfl rfl fun e he => ?_, parent_put hn rfl, rfl⟩, rfl,
        fun _ => ⟨by simpa using hitem, nd, hn, hchildren ▸ Option.some_ne_none entries⟩⟩
      rcases List.mem_cons.mp he with rfl | he
      · exact hcn
      · exact h.entry np nd hn e (List.mem_filter.mp he).1

/-- What `fs_move` does with a node that is in memory, with its mutex. -/
theorem within_move_node {c : NodeId} (hcn : c ≠ np)
    (hnot : ¬ MovesBelow d mem op on np nn s c) :
    Within Halt.Ordinary (moveNode d mem op on np nn c) s
      fun _ s' => Hierarchy s' locked files := by
  refine within_ite (fun _ => within_pure h) fun hdup => ?_
  refine (within_add_child h hcn).bind fun added s₁ hs₁ => ?_
  obtain ⟨⟨hs₁, hfixed₁⟩, hdriver, hadded⟩ := hs₁
  refine within_ite (fun _ => within_pure hs₁) fun hdone => ?_
  obtain ⟨hitem, htable⟩ := hadded (by simpa using hdone)
  refine (within_ask_driver hs₁).bind fun ret s₂ hs₂ => ?_
  obtain ⟨⟨hs₂, hfixed₂⟩, hret⟩ := hs₂
  refine within_ite (fun hagrees => ?_) fun _ => ?_
  · refine (within_remove_child hs₂).bind fun _ s₄ hs₄ => ?_
    obtain ⟨hs₄, hfixed₄⟩ := hs₄
    have hfixed := (hfixed₁.trans hfixed₂).trans hfixed₄
    refine (within_adopt hs₄ ?_ fun hpath => ?_).bind fun _ s₅ hs₅ => within_pure hs₅
    · rw [hfixed.nextNode]
      exact htable.elim fun pd hpd => h.old np pd hpd.1
    · rw [hfixed.parent] at hpath
      rcases reflTransGen_iff_eq_or_transGen.mp hpath with heq | hbelow
      · exact hcn heq
      · refine hnot ⟨hbelow, by simpa using hdup, hitem, htable, fun hrefuses => ?_⟩
        rw [hret, hdriver] at hagrees
        exact Bool.false_ne_true (hrefuses.symm.trans hagrees)
  · exact (within_remove_child hs₂).bind fun _ s₃ hs₃ => within_pure hs₃.1

end

/-- The states differ in the mutexes of nodes. -/
structure Similar (s s' : Vfs D) : Prop where
  driver : s'.driver = s.driver
  table : ∀ n, s'.hasTable n ↔ s.hasTable n
  child : ∀ n name, s'.childOf n name = s.childOf n name

theorem Similar.trans {s' s'' : Vfs D} (h : Similar s s') (h' : Similar s' s'') : Similar s s'' :=
  ⟨h'.driver.trans h.driver, fun n => (h'.table n).trans (h.table n),
    fun n name => (h'.child n name).trans (h.child n name)⟩

theorem similar_lock_node : Ensures (lockNode n) s fun _ s' => Similar s s' := by
  intro _ s' hrun
  obtain ⟨nd, s₁, hnode, hlock⟩ := run_bind_eq_ok hrun
  obtain ⟨hn, rfl⟩ := within_the_node.ensures nd s₁ hnode
  rw [run_ite, change_node_run hn] at hlock
  split at hlock
  · cases hlock
  cases hlock
  refine ⟨rfl, fun m => ?_, fun m name => ?_⟩ <;> by_cases hm : m = n
  · subst hm
    simp only [Vfs.hasTable, Vfs.put_node_self, hn, Option.some.injEq, exists_eq_left']
  · simp only [Vfs.hasTable, Vfs.put_node_of_ne s₁ hm]
  · subst hm
    simp only [Vfs.childOf, Vfs.put_node_self, hn, Option.bind_some]
    rfl
  · simp only [Vfs.childOf, Vfs.put_node_of_ne s₁ hm]

/-- The mutexes are given back in the order in which they have been taken. -/
theorem within_unlock_two (h : Hierarchy s [np, op] files) (ret : Bool) :
    Within Halt.Ordinary (do unlockNode op; unlockNode np; return ret) s
      fun _ s' => Hierarchy s' [] files :=
  (within_unlock_node (h.perm (.swap ..))).bind fun _ _ hs₁ =>
    (within_unlock_node hs₁.1).bind fun _ _ hs₂ => within_pure hs₂.1

/-- `fs_move` between the mutexes of the two directories. -/
theorem within_move_locked (h : Hierarchy s [] files) (hclash : ¬ MoveClashes d mem op on np nn s) :
    Within Halt.Ordinary (moveLocked d mem op on np nn) s fun _ s' => Hierarchy s' [] files := by
  obtain ⟨hne, hchild⟩ := not_or.mp hclash
  refine ((within_lock_node h List.not_mem_nil).and similar_lock_node).bind fun _ s₁ hs₁ => ?_
  obtain ⟨⟨hs₁, hfixed₁⟩, hsimilar₁⟩ := hs₁
  have hnp : np ∉ [op] := fun hmem => hne (List.mem_singleton.mp hmem).symm
  refine ((within_lock_node hs₁ hnp).and similar_lock_node).bind fun _ s₂ hs₂ => ?_
  obtain ⟨⟨hs₂, hfixed₂⟩, hsimilar₂⟩ := hs₂
  refine within_the_node.bind fun od s₃ hs₃ => ?_
  obtain ⟨hod, rfl⟩ := hs₃
  refine Within.bind ?_ fun ret s' (hs' : Hierarchy s' [np, op] files) => within_unlock_two hs' ret
  cases hfind : od.find on with
  | none => exact (within_ask_driver hs₂).mono fun _ _ hs₄ => hs₄.1.1
  | some c =>
      have hsimilar := hsimilar₁.trans hsimilar₂
      have hc : s.childOf op on = some c := by
        rw [← hsimilar.child, Vfs.childOf, hod]
        exact hfind
      obtain ⟨hcn, hbelow⟩ := not_or.mp fun hor => hchild ⟨c, hc, hor⟩
      have hco : c ≠ op := hs₂.entry op od hod (on, c) (Lib.Tally.mem_of_lookup hfind)
      have hnot : c ∉ [np, op] := by
        simp only [List.mem_cons, List.not_mem_nil, or_false, not_or]
        exact ⟨hcn, hco⟩
      refine ((within_lock_node hs₂ hnot).and similar_lock_node).bind fun _ s₄ hs₄ => ?_
      obtain ⟨⟨hs₄, hfixed₄⟩, hsimilar₄⟩ := hs₄
      have hall := hsimilar.trans hsimilar₄
      have hparents := (hfixed₁.trans hfixed₂).trans hfixed₄
      refine (within_move_node hs₄ hcn fun hmoves => hbelow ?_).bind fun ret s₅ hs₅ => ?_
      · obtain ⟨hpath, hdup, hitem, htable, hagrees⟩ := hmoves
        rw [hparents.parent] at hpath
        rw [hall.driver] at hagrees
        exact ⟨hpath, hdup, hitem, (hall.table np).mp htable, hagrees⟩
      · exact (within_unlock_node hs₅).bind fun _ s₆ hs₆ => within_pure hs₆.1

theorem within_has_move : Within Halt.Ordinary (hasMove d n) s fun can s' =>
    can = d.canMove n s.driver ∧ s' = s :=
  within_of_run rfl ⟨rfl, rfl⟩

/-- `fs_move`. -/
theorem within_move (h : Hierarchy s [] files)
    (hclash : ∀ op on np nn t, MoveArrives d okModes root old new s op on np nn t →
      ¬ MoveClashes d mem op on np nn t) :
    Within Halt.Ordinary (fsMove d mem okModes root old new) s
      fun _ s' => Hierarchy s' [] files := by
  refine within_ite (fun _ => within_pure h) fun hallowed => ?_
  refine ((within_walk_path_except_last h old).and_run).bind fun found t₁ ht₁ => ?_
  obtain ⟨ht₁, hold⟩ := ht₁
  cases found with
  | none => exact within_pure ht₁
  | some found =>
      refine ((within_walk_path_except_last ht₁ new).and_run).bind fun found' t ht => ?_
      obtain ⟨ht, hnew⟩ := ht
      cases found' with
      | none => exact within_give_up ht
      | some found' =>
          refine Within.bind ?_ fun ret s' (hs' : Hierarchy s' [] files) =>
            (within_unref_fs_node d.toDriver hs').bind fun _ _ hs₁ => within_give_up hs₁
          refine within_has_move.bind fun can s₁ hs₁ => ?_
          obtain ⟨hcan, rfl⟩ := hs₁
          refine within_ite (fun hmove => ?_) fun _ => within_pure ht
          exact within_move_locked ht (hclash _ _ _ _ _
            ⟨hallowed, ⟨t₁, hold, hnew⟩, hcan.symm.trans hmove⟩)

end Move

end Primitives

section Handles

variable {s : Vfs D} {locked : List NodeId} {files : HandleId → Option OpenFile} {n : NodeId}
  {h : HandleId}

/-- No mutex of a handle is taken. -/
def FreeFiles (files : HandleId → Option OpenFile) : Prop :=
  ∀ h file, files h = some file → file.lock = false

theorem FreeFiles.update (hfiles : FreeFiles files) {file : Option OpenFile}
    (hfile : ∀ f, file = some f → f.lock = false) : FreeFiles (Function.update files h file) := by
  intro g f hf
  by_cases hg : g = h
  · rw [hg, Function.update_self] at hf
    exact hfile f hf
  · rw [Function.update_of_ne hg] at hf
    exact hfiles g f hf

section

variable (hs : Hierarchy s locked files)

include hs

theorem Hierarchy.put_file (file : Option OpenFile) :
    Hierarchy (s.putFile h file) locked (Function.update files h file) :=
  { hs with files := by rw [← hs.files]; rfl }

theorem within_the_file :
    Within Halt.Ordinary (theFile h) s fun file s' => files h = some file ∧ s' = s := by
  rw [← hs.files]
  cases hf : s.handle h with
  | none =>
      refine within_of_stop ?_ ordinary_wild
      rw [theFile, run_get_bind, hf]
      rfl
  | some file => exact within_of_run (the_file_run hf) ⟨rfl, rfl⟩

theorem within_put_file (file : Option OpenFile) :
    Within Halt.Ordinary (putFile h file) s
      fun _ s' => Hierarchy s' locked (Function.update files h file) :=
  within_of_run rfl (hs.put_file file)

theorem within_lock_file (hfiles : FreeFiles files) :
    Within Halt.Ordinary (lockFile h) s fun _ s' =>
      ∃ file, Hierarchy s' locked (Function.update files h file) := by
  refine (within_the_file hs).bind fun file s₁ hs₁ => ?_
  obtain ⟨hfile, rfl⟩ := hs₁
  rw [hfiles h file hfile]
  exact (within_put_file hs _).mono fun _ _ hs₂ => ⟨_, hs₂⟩

end

theorem within_unlock_file (hs : Hierarchy s locked (Function.update files h file))
    (hfiles : FreeFiles files) : Within Halt.Ordinary (unlockFile h) s fun _ s' =>
      ∃ files', Hierarchy s' locked files' ∧ FreeFiles files' := by
  refine (within_the_file hs).bind fun file s₁ hs₁ => ?_
  obtain ⟨hfile, rfl⟩ := hs₁
  refine (within_put_file hs _).mono fun _ _ hs₂ => ⟨_, hs₂, ?_⟩
  rw [Function.update_idem]
  exact hfiles.update fun f hf => by cases hf; rfl

theorem within_ref_file (hs : Hierarchy s locked files) (hfiles : FreeFiles files) :
    Within Halt.Ordinary (refFile h) s fun _ s' =>
      ∃ files', Hierarchy s' locked files' ∧ FreeFiles files' := by
  refine (within_lock_file hs hfiles).bind fun _ s₁ hs₁ => ?_
  obtain ⟨file, hs₁⟩ := hs₁
  refine (within_the_file hs₁).bind fun file₁ s₂ hs₂ => ?_
  obtain ⟨-, rfl⟩ := hs₂
  refine (within_put_file hs₁ _).bind fun _ s₃ hs₃ => ?_
  rw [Function.update_idem] at hs₃
  exact within_unlock_file hs₃ hfiles

theorem within_new_file (hs : Hierarchy s locked files) (file : OpenFile) :
    Within Halt.Ordinary (newFile file) s
      fun _ s' => Hierarchy s' locked (Function.update files s.nextHandle (some file)) :=
  within_of_run rfl { hs with files := by rw [← hs.files] }

/-- The second part of `fs_open`. -/
theorem within_open_found (d : FsDriver D) (hs : Hierarchy s [] files) (hfiles : FreeFiles files)
    (mode : UInt32) : Within Halt.Ordinary (openFound d.toDriver n mode) s fun _ s' =>
      ∃ files', Hierarchy s' [] files' ∧ FreeFiles files' := by
  refine (within_lock_node hs List.not_mem_nil).bind fun _ s₁ hs₁ => ?_
  refine (within_ask_driver hs₁.1).bind fun answer s₂ hs₂ => ?_
  obtain ⟨⟨hs₂, -⟩, -⟩ := hs₂
  refine within_ite (fun _ => ?_) fun _ => ?_
  · refine (within_new_file hs₂ _).bind fun h s₃ hs₃ => ?_
    refine (within_unlock_node hs₃).bind fun _ s₄ hs₄ => ?_
    exact within_pure ⟨_, hs₄.1, hfiles.update fun f hf => by cases hf; rfl⟩
  · exact (within_unlock_node hs₂).bind fun _ _ hs₃ =>
      (within_give_up hs₃.1).mono fun _ _ hs₄ => ⟨files, hs₄, hfiles⟩

end Handles

section Systems

variable {α : Type} {s : FileSystems D} {files : HandleId → Option OpenFile} {d : FsDriver D}

/-- No mutex of the tree is taken, nor one of a file system of `fs_subfs` but those in `busy`. -/
structure Steady (s : FileSystems D) (files : HandleId → Option OpenFile) (busy : Nat → Prop) :
    Prop where
  tree : Hierarchy s.vfs [] files
  subs : ∀ k fs, s.sub k = some fs → fs.lock = true → busy k

/-- No mutex is taken between two calls. -/
def Idle (s : FileSystems D) : Prop :=
  ∃ files, Steady s files (fun _ => False) ∧ FreeFiles files

theorem on_tree_eq (call : VfsCall D α) (s : FileSystems D) : onTree call s =
    (call s.vfs >>= fun x => Except.ok (x.1, { s with vfs := x.2 })) := rfl

theorem within_on_tree {call : VfsCall D α} {post : α → Vfs D → Prop}
    (h : Within Halt.Ordinary call s.vfs post) : Within Halt.Ordinary (onTree call) s
      fun a s' => post a s'.vfs ∧ s' = { s with vfs := s'.vfs } := by
  cases hrun : call s.vfs with
  | ok x =>
      have hcall : onTree call s = .ok (x.1, { s with vfs := x.2 }) := by
        rw [on_tree_eq, hrun]
        rfl
      exact within_of_run hcall ⟨h.ensures x.1 x.2 hrun, rfl⟩
  | error stop =>
      refine within_of_stop ?_ (h.allows hrun)
      rw [on_tree_eq, hrun]
      rfl

variable {busy : Nat → Prop} {k : Nat}

/-- A call on the tree that leaves the handles alone. -/
theorem within_tree (hs : Steady s files busy) {call : VfsCall D α}
    (h : Within Halt.Ordinary call s.vfs fun _ v => Hierarchy v [] files) :
    Within Halt.Ordinary (onTree call) s fun _ s' => Steady s' files busy :=
  (within_on_tree h).mono fun _ _ hs' => ⟨hs'.1, by rw [hs'.2]; exact hs.subs⟩

/-- A call on the tree and the handles. -/
theorem within_tree_idle (hs : Steady s files fun _ => False) {call : VfsCall D α}
    (h : Within Halt.Ordinary call s.vfs fun _ v =>
      ∃ files', Hierarchy v [] files' ∧ FreeFiles files') :
    Within Halt.Ordinary (onTree call) s fun _ s' => Idle s' := by
  refine (within_on_tree h).mono fun _ s' hs' => ?_
  obtain ⟨⟨files', htree, hfree⟩, hsame⟩ := hs'
  exact ⟨files', ⟨htree, by rw [hsame]; exact hs.subs⟩, hfree⟩

theorem within_the_sub : Within Halt.Ordinary (theSub (D := D) k) s fun fs s' =>
    s.sub k = some fs ∧ s' = s := by
  cases hfs : s.sub k with
  | none =>
      refine within_of_stop ?_ ordinary_wild
      rw [theSub, run_get_bind, hfs]
      rfl
  | some fs =>
      refine within_of_run ?_ ⟨rfl, rfl⟩
      rw [theSub, run_get_bind, hfs]
      rfl

theorem within_put_sub (busy' : Nat → Prop) (hs : Steady s files busy) {fs : Option SubFs}
    (hlock : ∀ f, fs = some f → f.lock = true → busy' k) (hother : ∀ j, j ≠ k → busy j → busy' j) :
    Within Halt.Ordinary (putSub k fs) s fun _ s' => Steady s' files busy' := by
  refine within_of_run rfl ⟨hs.tree, fun j f hf hflock => ?_⟩
  change Function.update s.sub k fs j = some f at hf
  by_cases hj : j = k
  · subst hj
    rw [Function.update_self] at hf
    exact hlock f hf hflock
  · rw [Function.update_of_ne hj] at hf
    exact hother j hj (hs.subs j f hf hflock)

theorem within_lock_sub (hs : Steady s files fun _ => False) :
    Within Halt.Ordinary (lockSub k) s fun _ s' => Steady s' files (· = k) := by
  refine within_the_sub.bind fun fs s₁ hs₁ => ?_
  obtain ⟨hfs, rfl⟩ := hs₁
  rw [Bool.eq_false_iff.mpr fun hlock => hs.subs k fs hfs hlock]
  exact within_put_sub (· = k) hs (fun _ _ _ => rfl) fun _ _ => False.elim

theorem within_unlock_sub (hs : Steady s files (· = k)) :
    Within Halt.Ordinary (unlockSub k) s fun _ s' => Steady s' files fun _ => False := by
  refine within_the_sub.bind fun fs s₁ hs₁ => ?_
  obtain ⟨-, rfl⟩ := hs₁
  exact within_put_sub _ hs (fun f hf hlock => by cases hf; cases hlock) fun _ hne => hne

theorem within_modes_and_root (fs : FsRef) :
    Within Halt.Ordinary (modesAndRoot fs) s fun _ s' => s' = s := by
  cases fs with
  | made =>
      refine (within_on_tree within_the_fs).bind fun fs s₁ hs₁ => within_pure ?_
      rw [hs₁.2, hs₁.1.2]
  | sub k =>
      refine within_the_sub.bind fun fs s₁ hs₁ => ?_
      exact within_pure hs₁.2

section

variable (hs : Steady s files fun _ => False)

include hs

theorem within_ref_fs_of (fs : FsRef) :
    Within Halt.Ordinary (refFsOf fs) s fun _ s' => Steady s' files fun _ => False := by
  cases fs with
  | made => exact within_tree hs (within_ref_fs hs.tree)
  | sub k =>
      refine (within_lock_sub hs).bind fun _ s₁ hs₁ => ?_
      refine within_the_sub.bind fun fs s₂ hs₂ => ?_
      obtain ⟨-, rfl⟩ := hs₂
      refine (within_put_sub (· = k) hs₁ (fun _ _ _ => rfl) fun _ _ => id).bind fun _ s₃ hs₃ => ?_
      exact within_unlock_sub hs₃

/-- `unref_fs`. -/
theorem within_unref_fs_of (fs : FsRef) :
    Within Halt.Ordinary (unrefFsOf d fs) s fun _ s' => Steady s' files fun _ => False := by
  cases fs with
  | made => exact within_tree hs (within_unref_fs d.toDriver hs.tree)
  | sub k =>
      refine (within_lock_sub hs).bind fun _ s₁ hs₁ => ?_
      refine within_the_sub.bind fun fs s₂ hs₂ => ?_
      obtain ⟨-, rfl⟩ := hs₂
      refine (within_put_sub (· = k) hs₁ (fun _ _ _ => rfl) fun _ _ => id).bind fun _ s₃ hs₃ => ?_
      refine within_ite (fun _ => ?_) fun _ => within_unlock_sub hs₃
      refine (within_tree hs₃ (within_unref_fs_node d.toDriver hs₃.tree)).bind fun _ s₄ hs₄ => ?_
      exact within_put_sub _ hs₄ (fun _ hf => by cases hf) fun _ hne => hne

/-- `fs_open`. -/
theorem within_open_file (hfiles : FreeFiles files)
    (fs : FsRef) (file : Name) (mode : UInt32) :
    Within Halt.Ordinary (openFile d fs file mode) s fun _ s' => Idle s' := by
  refine (within_modes_and_root fs).bind fun found s₁ hs₁ => ?_
  subst hs₁
  refine within_ite (fun _ => within_pure ⟨files, hs, hfiles⟩) fun _ => ?_
  refine (within_tree hs (within_node_to_open hs.tree mode)).bind fun n s₂ hs₂ => ?_
  cases n with
  | none => exact within_pure ⟨files, hs₂, hfiles⟩
  | some n =>
      refine (within_tree_idle hs₂ (within_open_found d hs₂.tree hfiles _)).bind
        fun h s₃ hs₃ => ?_
      cases h with
      | none => exact within_pure hs₃
      | some h =>
          obtain ⟨files', hs₃, hfree⟩ := hs₃
          refine Within.bind (within_of_run rfl ?_) fun _ s₄ (hs₄ : Steady s₄ files' _) =>
            (within_ref_fs_of hs₄ fs).bind fun _ s₅ hs₅ => within_pure ⟨files', hs₅, hfree⟩
          exact ⟨hs₃.tree, hs₃.subs⟩

/-- `fs_subfs`. -/
theorem within_make_subfs (hfiles : FreeFiles files)
    (fs : FsRef) (root : Name) (okModes : UInt32) :
    Within Halt.Ordinary (makeSubfs d fs root okModes) s fun _ s' => Idle s' := by
  refine (within_modes_and_root fs).bind fun found s₁ hs₁ => ?_
  subst hs₁
  refine (within_tree hs (within_walk_path hs.tree root)).bind fun n s₂ hs₂ => ?_
  cases n with
  | none => exact within_pure ⟨files, hs₂, hfiles⟩
  | some n =>
      refine Within.bind (within_of_run rfl hs₂) fun start s₃ (hs₃ : Steady s₃ files _) => ?_
      refine (within_put_sub _ hs₃ (fun f hf hlock => by cases hf; cases hlock)
        fun _ _ => id).bind fun _ s₄ hs₄ => ?_
      refine Within.bind (within_of_run rfl ?_) fun _ s₅ (hs₅ : Steady s₅ files _) =>
        within_pure ⟨files, hs₅, hfiles⟩
      exact ⟨hs₄.tree, hs₄.subs⟩

end

/-- A change of a handle. -/
theorem within_tree_file (hs : Steady s files busy) (h : HandleId) (file : Option OpenFile) :
    Within Halt.Ordinary (onTree (putFile h file)) s
      fun _ s' => Steady s' (Function.update files h file) busy :=
  (within_on_tree (within_put_file hs.tree file)).mono
    fun _ _ hs' => ⟨hs'.1, by rw [hs'.2]; exact hs.subs⟩

/-- `unref_file`. -/
theorem within_unref_file_of (hs : Steady s files fun _ => False) (hfiles : FreeFiles files)
    (h : HandleId) : Within Halt.Ordinary (unrefFileOf d h) s fun _ s' => Idle s' := by
  refine (within_on_tree (within_lock_file hs.tree hfiles)).bind fun _ s₁ hs₁ => ?_
  obtain ⟨⟨locked, hlocked⟩, hsame⟩ := hs₁
  have hs₁ : Steady s₁ (Function.update files h locked) fun _ => False :=
    ⟨hlocked, by rw [hsame]; exact hs.subs⟩
  refine (within_on_tree (within_the_file hs₁.tree)).bind fun file s₂ hs₂ => ?_
  obtain ⟨⟨-, hvfs⟩, hsame₂⟩ := hs₂
  rw [hvfs] at hsame₂
  subst hsame₂
  refine (within_tree_file hs₁ h _).bind fun _ s₃ hs₃ => ?_
  rw [Function.update_idem] at hs₃
  refine within_ite (fun _ => ?_) fun _ =>
    within_tree_idle hs₃ (within_unlock_file hs₃.tree hfiles)
  refine (within_tree hs₃ ((within_tell_driver hs₃.tree).mono fun _ _ ht => ht.1)).bind
    fun _ s₄ hs₄ => ?_
  refine (within_tree hs₄ (within_unref_fs_node d.toDriver hs₄.tree)).bind fun _ s₅ hs₅ => ?_
  refine Within.bind (within_of_run rfl hs₅) fun state s₆ (hs₆ : Steady s₆ _ _) => ?_
  refine (within_unref_fs_of hs₆ _).bind fun _ s₇ hs₇ => ?_
  refine (within_tree_file hs₇ h none).mono fun _ s₈ hs₈ => ⟨_, hs₈, ?_⟩
  rw [Function.update_idem]
  exact hfiles.update fun f hf => by cases hf

end Systems

section Runs

variable {s : FileSystems D} {d : FsDriver D}

/-- The call is an `fs_move` that comes to the directories `op` and `np` in the tree `t`. -/
def FsOp.ArrivesAt (d : FsDriver D) (s : FileSystems D) (mem : MoveMemory) (op : NodeId) (on : Name)
    (np : NodeId) (nn : Name) (t : Vfs D) : FsOp → Prop
  | .move mem' fs old new => mem' = mem ∧ ∃ okModes root,
      modesAndRoot fs s = .ok ((okModes, root), s) ∧
        MoveArrives d.toMoveDriver okModes root old new s.vfs op on np nn t
  | _ => False

/-- The call is an `fs_move` within one directory, of a directory into itself, or of a node to a
place below it. -/
def FsOp.Clashes (d : FsDriver D) (s : FileSystems D) (call : FsOp) : Prop :=
  ∃ mem op on np nn t, call.ArrivesAt d s mem op on np nn t ∧
    MoveClashes d.toMoveDriver mem op on np nn t

/-- The call is an `fs_move` that takes a mutex twice, of nodes that are in memory. -/
def FsOp.ClashesAtOnce (d : FsDriver D) (s : FileSystems D) (call : FsOp) : Prop :=
  ∃ mem op on np nn t pd, call.ArrivesAt d s mem op on np nn t ∧ t.node np = some pd ∧
    (op = np ∨ t.childOf op on = some np)

/-- What a call keeps, and how it may stop. -/
theorem call_within (hs : Idle s) (call : FsOp) (hclash : ¬ call.Clashes d s) :
    Within Halt.Ordinary (call.run d) s fun _ s' => Idle s' := by
  obtain ⟨files, hs, hfiles⟩ := hs
  have hdone : ∀ {s' : FileSystems D}, Steady s' files (fun _ => False) → Idle s' :=
    fun hs' => ⟨files, hs', hfiles⟩
  cases call with
  | «open» fs file mode =>
      exact (within_open_file hs hfiles fs file mode).bind fun _ _ hs' => within_pure hs'
  | create fs file type =>
      refine (within_modes_and_root fs).bind fun found s₁ hs₁ => ?_
      subst hs₁
      exact (within_tree hs (within_create_file hs.tree type)).bind
        fun _ _ hs' => within_pure (hdone hs')
  | delete fs file =>
      refine (within_modes_and_root fs).bind fun found s₁ hs₁ => ?_
      subst hs₁
      exact (within_tree hs (within_delete_file hs.tree)).bind
        fun _ _ hs' => within_pure (hdone hs')
  | move mem fs old new =>
      refine ((within_modes_and_root fs).and_run).bind fun found s₁ hs₁ => ?_
      obtain ⟨rfl, hrun⟩ := hs₁
      refine (within_tree hs (within_move hs.tree fun op on np nn t harrives hmove =>
        hclash ⟨mem, op, on, np, nn, t, ⟨rfl, found.1, found.2, hrun, harrives⟩, hmove⟩)).bind
          fun _ _ hs' => within_pure (hdone hs')
  | stat fs file =>
      refine (within_modes_and_root fs).bind fun found s₁ hs₁ => ?_
      subst hs₁
      exact (within_tree hs (within_stat_file hs.tree)).bind
        fun _ _ hs' => within_pure (hdone hs')
  | subfs fs root okModes =>
      exact (within_make_subfs hs hfiles fs root okModes).bind fun _ _ hs' => within_pure hs'
  | ref h => exact within_tree_idle hs (within_ref_file hs.tree hfiles)
  | unref h => exact within_unref_file_of hs hfiles h
  | refFs fs => exact (within_ref_fs_of hs fs).mono fun _ _ => hdone
  | unrefFs fs => exact (within_unref_fs_of hs fs).mono fun _ _ => hdone

/-- The runs of calls on the file system that `make_fs` has made, whose root has a free mutex, and
on those that the calls make from it. -/
def fsRuns (d : FsDriver D) (driver : D) (okModes : UInt32) (rootName : Name) :
    System (FileSystems D) where
  init := fun s => s = ⟨makeFs driver okModes false rootName, fun _ => none, 0, fun _ => .made⟩
  step := fun s s' => ∃ call : FsOp, ¬ call.Clashes d s ∧ call.run d s = .ok ((), s')

variable {driver : D} {okModes : UInt32} {rootName : Name}

theorem make_fs_hierarchy :
    Hierarchy (makeFs driver okModes false rootName) [] fun _ => none := by
  have hnode := @make_fs_node D driver okModes false rootName
  have hedge : ∀ {a b}, ¬ (makeFs driver okModes false rootName).Parent a b := by
    rintro a b ⟨nd, ha, hb⟩
    rw [(hnode ha).2] at hb
    cases hb
  refine ⟨fun n nd hn hlock => ?_, fun n nd hn => ?_, fun n nd p hn hp => ?_, fun n nd hn => ?_,
    fun a ha => ?_, fun fs hfs => ?_, rfl, List.nodup_nil, fun n hn => absurd hn List.not_mem_nil⟩
  · rw [(hnode hn).2] at hlock
    cases hlock
  · rw [(hnode hn).1]
    exact Nat.zero_lt_one
  · exact absurd ⟨nd, hn, hp⟩ hedge
  · rw [(hnode hn).2]
    exact fun e he => absurd he List.not_mem_nil
  · obtain ⟨b, hab, -⟩ := TransGen.head'_iff.mp ha
    exact hedge hab
  · cases hfs
    rfl

theorem idle_of_reachable (hs : Reachable (fsRuns d driver okModes rootName) s) : Idle s := by
  refine Reachable.induct (motive := Idle) (fun s hinit => ?_) (fun s s' hs hstep => ?_) hs
  · rw [hinit]
    exact ⟨_, ⟨make_fs_hierarchy, nofun⟩, nofun⟩
  · obtain ⟨call, hclash, hrun⟩ := hstep
    exact (call_within hs call hclash).ensures () s' hrun

/-- The mutex of the new directory is taken for a second time. -/
theorem clash_deadlocks (hs : Idle s) {call : FsOp} (hclash : call.ClashesAtOnce d s) :
    call.run d s = .error .deadlock := by
  obtain ⟨files, hs, -⟩ := hs
  obtain ⟨mem, op, on, np, nn, t, pd, harrives, hpd, hclash⟩ := hclash
  cases call with
  | move mem' fs old new =>
      obtain ⟨rfl, okModes, root, hmodes, hallowed, ⟨t₁, hold, hnew⟩, hcan⟩ := harrives
      have ht₁ := (within_walk_path_except_last hs.tree old).ensures _ _ hold
      have ht := (within_walk_path_except_last ht₁ new).ensures _ _ hnew
      have hfree := ht.unlocked (n := np) List.not_mem_nil
      have hlocked : moveLocked d.toMoveDriver mem' op on np nn t = .error .deadlock := by
        by_cases hne : op = np
        · subst hne
          rw [moveLocked, run_bind_of_ok (lock_node_run hpd (hfree pd hpd))]
          exact run_bind_of_error (lock_node_stops (Vfs.put_node_self ..) rfl)
        · obtain ⟨od, hod, hfind⟩ := Option.bind_eq_some_iff.mp (hclash.resolve_left hne)
          exact move_locked_self hod hpd hne (ht.unlocked List.not_mem_nil od hod) (hfree pd hpd)
            hfind
      have hbetween : moveBetween d.toMoveDriver mem' op on np nn t = .error .deadlock := by
        have hhas : hasMove d.toMoveDriver op t = .ok (true, t) :=
          congrArg (fun can => Except.ok (can, t)) hcan
        refine run_bind_of_error ?_
        rw [run_bind_of_ok hhas]
        exact hlocked
      have hmove : fsMove d.toMoveDriver mem' okModes root old new s.vfs = .error .deadlock := by
        rw [fsMove, run_ite, if_neg hallowed, run_bind_of_ok hold]
        dsimp only
        rw [run_bind_of_ok hnew]
        exact hbetween
      rw [FsOp.run, run_bind_of_ok hmodes]
      refine run_bind_of_error ?_
      rw [on_tree_eq, hmove]
      rfl
  | _ => exact harrives.elim

/-- No call waits for a mutex of its own, unless it is an `fs_move` within one directory, into the
node itself or below it; the first two wait for a mutex of their own. -/
theorem calls_take_mutexes_once (hs : Reachable (fsRuns d driver okModes rootName) s)
    (call : FsOp) :
    (¬ call.Clashes d s → call.run d s ≠ .error .deadlock ∧ call.run d s ≠ .error .diverge) ∧
      (call.ClashesAtOnce d s → call.run d s = .error .deadlock) := by
  have hidle := idle_of_reachable hs
  refine ⟨fun hclash => ?_, clash_deadlocks hidle⟩
  have hwithin := call_within hidle call hclash
  exact ⟨fun hrun => (hwithin.allows hrun).1 rfl, fun hrun => (hwithin.allows hrun).2 rfl⟩

/-- A driver that does what it is asked to do. -/
def FsDriver.obliging : FsDriver Unit where
  toMoveDriver := .generous true
  delete := fun _ _ _ => (true, ())

/-- A file system that `make_fs` has just made. -/
def madeNow : FileSystems Unit :=
  ⟨makeFs () (fmRead ||| fmDmove) false [], fun _ => none, 0, fun _ => .made⟩

/-- In a new file system a stat of `a` comes back. -/
theorem stat_takes_mutexes_once :
    (FsOp.stat .made [97]).run .obliging madeNow ≠ .error .deadlock ∧
      (FsOp.stat .made [97]).run .obliging madeNow ≠ .error .diverge := by
  refine (calls_take_mutexes_once (.init rfl) (FsOp.stat .made [97])).1 ?_
  rintro ⟨mem, op, on, np, nn, t, harrives, -⟩
  exact harrives

/-- The call stops in this way. -/
def stopsIn {σ α : Type} (outcome : Except Halt (α × σ)) (halt : Halt) : Bool :=
  match outcome with
  | .ok _ => false
  | .error stop => stop == halt

theorem error_of_stops_in {σ α : Type} {outcome : Except Halt (α × σ)} {halt : Halt}
    (h : stopsIn outcome halt = true) : outcome = .error halt := by
  match outcome with
  | .ok _ => cases h
  | .error stop => rw [beq_iff_eq.mp h]

/-- `mv a b` in one directory, and `mv a a/b`, wait for a mutex of their own. After `mv a a/b/c`,
with `a/b/x` open and no mutex taken, the close of the file does. -/
theorem move_waits_for_itself :
    (FsOp.move ⟨true, true⟩ .made [97] [98]).run .obliging madeNow = .error .deadlock ∧
      (FsOp.move ⟨true, true⟩ .made [97] [97, slash, 98]).run .obliging madeNow =
        .error .deadlock ∧
      ∃ s s', (FsOp.open .made [97, slash, 98, slash, 120] fmRead).run .obliging madeNow =
          .ok ((), s) ∧
        (FsOp.move ⟨true, true⟩ .made [97] [97, slash, 98, slash, 99]).run .obliging s =
          .ok ((), s') ∧
        (∀ n < s'.vfs.nextNode, (s'.vfs.node n).all (!·.lock)) ∧
        (FsOp.unref 0).run .obliging s' = .error .deadlock := by
  have hsame : stopsIn ((FsOp.move ⟨true, true⟩ .made [97] [98]).run .obliging madeNow)
      .deadlock = true := by decide +kernel
  have hself : stopsIn ((FsOp.move ⟨true, true⟩ .made [97] [97, slash, 98]).run .obliging madeNow)
      .deadlock = true := by decide +kernel
  have hbelow : endsIn ((FsOp.open .made [97, slash, 98, slash, 120] fmRead).run .obliging
      madeNow) (fun _ s => endsIn ((FsOp.move ⟨true, true⟩ .made [97]
        [97, slash, 98, slash, 99]).run .obliging s) fun _ s' =>
          decide (∀ n < s'.vfs.nextNode, (s'.vfs.node n).all (!·.lock)) &&
            stopsIn ((FsOp.unref 0).run .obliging s') .deadlock) = true := by decide +kernel
  obtain ⟨_, s, hopen, hbelow⟩ := exists_of_ends_in hbelow
  obtain ⟨_, s', hmove, hbelow⟩ := exists_of_ends_in hbelow
  obtain ⟨hfree, hclose⟩ := Bool.and_eq_true_iff.mp hbelow
  exact ⟨error_of_stops_in hsame, error_of_stops_in hself, s, s', hopen, hmove,
    of_decide_eq_true hfree, error_of_stops_in hclose⟩

end Runs

end Kogata.Kernel
