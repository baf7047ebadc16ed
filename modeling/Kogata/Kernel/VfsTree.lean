import Kogata.Kernel.Vfs
import Kogata.Lib.Effect
import Kogata.Lib.Tally

/-!
# The tree of the nodes in memory and its counts

A node whose count has reached zero is on its way out: it has left its parent's table, but its
block is there until the references that it held have been dropped. `Tree` says how the other,
live nodes hang together, and `Counted s held` adds that each reference count is the number of
live children and handles plus the references `held` by the code that is running. One lemma for
each thing that the code does to the heaps says how `held` changes.
-/

namespace Kogata.Kernel

open Lib.Tally

variable {D : Type}

/-- The node `c` is a live child of `p`. -/
def Vfs.Child (s : Vfs D) (p c : NodeId) : Prop :=
  ∃ cd, s.node c = some cd ∧ 0 < cd.refs ∧ cd.parent = some p

/-- The handle `h` is a live handle of the node `n`. -/
def Vfs.Opens (s : Vfs D) (n : NodeId) (h : HandleId) : Prop :=
  ∃ file, s.handle h = some file ∧ 0 < file.refs ∧ file.node = n

/-- The node is in memory and is not the root. -/
def Vfs.Below (s : Vfs D) (c : NodeId) : Prop :=
  c ≠ fsRoot ∧ (s.node c).isSome

/-- The handle is in memory. -/
def Vfs.Held (s : Vfs D) (h : HandleId) : Prop :=
  (s.handle h).isSome

instance (s : Vfs D) (p c : NodeId) : Decidable (s.Child p c) :=
  decidable_of_iff ((s.node c).any (fun cd => decide (0 < cd.refs) && cd.parent == some p) = true)
    (by simp [Vfs.Child, Option.any_eq_true])

instance (s : Vfs D) (n : NodeId) (h : HandleId) : Decidable (s.Opens n h) :=
  decidable_of_iff ((s.handle h).any (fun file => decide (0 < file.refs) && file.node == n) = true)
    (by simp [Vfs.Opens, Option.any_eq_true])

instance (s : Vfs D) (c : NodeId) : Decidable (s.Below c) :=
  inferInstanceAs (Decidable (_ ∧ _))

instance (s : Vfs D) (h : HandleId) : Decidable (s.Held h) :=
  inferInstanceAs (Decidable (_ = true))

/-- The number of live children of a node. -/
def Vfs.childCount (s : Vfs D) (n : NodeId) : Nat :=
  Nat.count (s.Child n) s.nextNode

/-- The number of live handles of a node. -/
def Vfs.handleCount (s : Vfs D) (n : NodeId) : Nat :=
  Nat.count (s.Opens n) s.nextHandle

/-- The number of nodes in memory, without the root. -/
def Vfs.nodeTotal (s : Vfs D) : Nat :=
  Nat.count s.Below s.nextNode

/-- The number of handles in memory. -/
def Vfs.handleTotal (s : Vfs D) : Nat :=
  Nat.count s.Held s.nextHandle

/-- How the live nodes hang together: each has a live, older parent whose table binds it under
its name, and the tables bind nothing else. -/
structure Tree (s : Vfs D) : Prop where
  root : ∃ nd, s.node fsRoot = some nd ∧ 0 < nd.refs ∧ nd.parent = none
  old : ∀ n nd, s.node n = some nd → n < s.nextNode
  bound : ∀ c cd, s.node c = some cd → 0 < cd.refs → c ≠ fsRoot → ∃ p pd, cd.parent = some p ∧
    p < c ∧ s.node p = some pd ∧ 0 < pd.refs ∧ (cd.name, c) ∈ pd.entries
  entry : ∀ p pd, s.node p = some pd → ∀ e ∈ pd.entries, ∃ cd, s.node e.2 = some cd ∧
    0 < cd.refs ∧ cd.parent = some p ∧ cd.name = e.1
  keys : ∀ p pd, s.node p = some pd → (pd.entries.map Prod.fst).Nodup

/-- The tree, with reference counts that are exact but for the references that the running code
holds. -/
structure Counted (s : Vfs D) (held : NodeId → Nat) : Prop extends Tree s where
  fsExact : ∃ fs, s.fs = some fs ∧ fs.lock = false ∧
    fs.refs = 1 + (s.nodeTotal : Int) + s.handleTotal
  exact : ∀ n nd, s.node n = some nd → 0 < nd.refs → nd.lock = false ∧
    nd.refs = s.childCount n + s.handleCount n + held n + if n = fsRoot then 1 else 0
  holds : ∀ n, 0 < held n → ∃ nd, s.node n = some nd ∧ 0 < nd.refs
  files : ∀ h file, s.handle h = some file → h < s.nextHandle ∧ (0 < file.refs →
    file.lock = false ∧ ∃ nd, s.node file.node = some nd ∧ 0 < nd.refs)

/-- One more reference to `n` is held. -/
def plus (n : NodeId) (held : NodeId → Nat) : NodeId → Nat :=
  fun m => held m + if m = n then 1 else 0

@[simp] theorem plus_self (n : NodeId) (held : NodeId → Nat) : plus n held n = held n + 1 := by
  simp [plus]

@[simp] theorem plus_of_ne {n m : NodeId} (h : m ≠ n) (held : NodeId → Nat) :
    plus n held m = held m := by
  simp [plus, h]

/-- The state with the block of a node written or freed. -/
def Vfs.put (s : Vfs D) (n : NodeId) (nd : Option FsNode) : Vfs D :=
  { s with node := Function.update s.node n nd }

@[simp] theorem Vfs.put_node_self (s : Vfs D) (n : NodeId) (nd : Option FsNode) :
    (s.put n nd).node n = nd := by
  simp [Vfs.put]

@[simp] theorem Vfs.put_node_of_ne (s : Vfs D) {n m : NodeId} (h : m ≠ n) (nd : Option FsNode) :
    (s.put n nd).node m = s.node m := by
  simp [Vfs.put, h]

@[simp] theorem Vfs.put_put (s : Vfs D) (n : NodeId) (nd nd' : Option FsNode) :
    (s.put n nd).put n nd' = s.put n nd' := by
  simp [Vfs.put]

section Counts

variable {s s' : Vfs D}

/-- Nodes that agree on who is alive and on the parents have the same children. -/
theorem child_count_congr (hnext : s'.nextNode = s.nextNode) {n : NodeId}
    (h : ∀ c, s'.Child n c ↔ s.Child n c) : s'.childCount n = s.childCount n := by
  rw [Vfs.childCount, Vfs.childCount, hnext]
  exact count_congr fun c _ => h c

theorem handle_count_congr (hnext : s'.nextHandle = s.nextHandle) {n : NodeId}
    (h : ∀ f, s'.Opens n f ↔ s.Opens n f) : s'.handleCount n = s.handleCount n := by
  rw [Vfs.handleCount, Vfs.handleCount, hnext]
  exact count_congr fun f _ => h f

theorem node_total_congr (hnext : s'.nextNode = s.nextNode)
    (h : ∀ c, (s'.node c).isSome = (s.node c).isSome) : s'.nodeTotal = s.nodeTotal := by
  rw [Vfs.nodeTotal, Vfs.nodeTotal, hnext]
  exact count_congr fun c _ => by rw [Vfs.Below, Vfs.Below, h c]

/-- A node without live children has nothing in its table. -/
theorem Tree.entries_nil (h : Tree s) {n : NodeId} {nd : FsNode} (hn : s.node n = some nd)
    (hcount : s.childCount n = 0) : nd.entries = [] := by
  rw [List.eq_nil_iff_forall_not_mem]
  intro e he
  obtain ⟨cd, hc, hlive, hparent, -⟩ := h.entry n nd hn e he
  exact Nat.count_iff_forall_not.mp hcount e.2 (h.old _ _ hc) ⟨cd, hc, hlive, hparent⟩

/-- No live node is a child of a node that has no live children. -/
theorem Tree.not_parent (h : Tree s) {n c : NodeId} {cd : FsNode} (hcount : s.childCount n = 0)
    (hc : s.node c = some cd) (hlive : 0 < cd.refs) : cd.parent ≠ some n :=
  fun hparent => Nat.count_iff_forall_not.mp hcount c (h.old _ _ hc) ⟨cd, hc, hlive, hparent⟩

end Counts

section Alike

variable {s : Vfs D} {n : NodeId} {nd nd' : FsNode}

/-- The two node blocks agree on everything but the lock and how many references there are. -/
structure FsNode.Alike (nd nd' : FsNode) : Prop where
  live : 0 < nd'.refs ↔ 0 < nd.refs
  name : nd'.name = nd.name
  parent : nd'.parent = nd.parent
  children : nd'.children = nd.children

theorem FsNode.Alike.entries (h : nd.Alike nd') : nd'.entries = nd.entries := by
  rw [FsNode.entries, FsNode.entries, h.children]

section

variable (hn : s.node n = some nd)

include hn

/-- What a node of the changed state was before. -/
theorem put_alike_back (h : nd.Alike nd') {c : NodeId} {cd' : FsNode}
    (hc : (s.put n (some nd')).node c = some cd') :
    ∃ cd, s.node c = some cd ∧ cd.Alike cd' ∧ (c ≠ n → cd' = cd) := by
  by_cases hcn : c = n
  · subst hcn
    rw [Vfs.put_node_self] at hc
    cases hc
    exact ⟨nd, hn, h, fun hne => absurd rfl hne⟩
  · rw [Vfs.put_node_of_ne s hcn] at hc
    exact ⟨cd', hc, ⟨Iff.rfl, rfl, rfl, rfl⟩, fun _ => rfl⟩

/-- What a node becomes in the changed state. -/
theorem put_alike_forth (h : nd.Alike nd') {c : NodeId} {cd : FsNode}
    (hc : s.node c = some cd) : ∃ cd', (s.put n (some nd')).node c = some cd' ∧ cd.Alike cd' := by
  by_cases hcn : c = n
  · subst hcn
    obtain rfl : nd = cd := Option.some.inj (hn.symm.trans hc)
    exact ⟨nd', Vfs.put_node_self s c _, h⟩
  · exact ⟨cd, by rw [Vfs.put_node_of_ne s hcn]; exact hc, ⟨Iff.rfl, rfl, rfl, rfl⟩⟩

/-- Changing the lock or the number of references of a node changes no children. -/
theorem put_alike_child (h : nd.Alike nd') (p c : NodeId) :
    (s.put n (some nd')).Child p c ↔ s.Child p c := by
  constructor
  · rintro ⟨cd', hc, hlive, hparent⟩
    obtain ⟨cd, hold, halike, -⟩ := put_alike_back hn h hc
    exact ⟨cd, hold, halike.live.mp hlive, halike.parent ▸ hparent⟩
  · rintro ⟨cd, hc, hlive, hparent⟩
    obtain ⟨cd', hnew, halike⟩ := put_alike_forth hn h hc
    exact ⟨cd', hnew, halike.live.mpr hlive, halike.parent.trans hparent⟩

theorem put_is_some (c : NodeId) :
    ((s.put n (some nd')).node c).isSome = (s.node c).isSome := by
  by_cases hcn : c = n
  · subst hcn
    simp [hn]
  · rw [Vfs.put_node_of_ne s hcn]

end

/-- It keeps the tree. -/
theorem Tree.put_alike (ht : Tree s) (hn : s.node n = some nd) (h : nd.Alike nd') :
    Tree (s.put n (some nd')) where
  root := by
    obtain ⟨rd, hroot, hlive, hparent⟩ := ht.root
    obtain ⟨rd', hnew, halike⟩ := put_alike_forth hn h hroot
    exact ⟨rd', hnew, halike.live.mpr hlive, halike.parent.trans hparent⟩
  old := fun c cd' hc => by
    obtain ⟨cd, hold, -⟩ := put_alike_back hn h hc
    exact ht.old c cd hold
  bound := fun c cd' hc hlive hroot => by
    obtain ⟨cd, hold, halike, -⟩ := put_alike_back hn h hc
    obtain ⟨p, pd, hparent, hlt, hp, hplive, hentry⟩ :=
      ht.bound c cd hold (halike.live.mp hlive) hroot
    obtain ⟨pd', hnew, hpalike⟩ := put_alike_forth hn h hp
    refine ⟨p, pd', halike.parent.trans hparent, hlt, hnew, hpalike.live.mpr hplive, ?_⟩
    rw [hpalike.entries, halike.name]
    exact hentry
  entry := fun p pd' hp e he => by
    obtain ⟨pd, hold, halike, -⟩ := put_alike_back hn h hp
    rw [halike.entries] at he
    obtain ⟨cd, hc, hlive, hparent, hname⟩ := ht.entry p pd hold e he
    obtain ⟨cd', hnew, hcalike⟩ := put_alike_forth hn h hc
    exact ⟨cd', hnew, hcalike.live.mpr hlive, hcalike.parent.trans hparent,
      hcalike.name.trans hname⟩
  keys := fun p pd' hp => by
    obtain ⟨pd, hold, halike, -⟩ := put_alike_back hn h hp
    rw [halike.entries]
    exact ht.keys p pd hold

/-- Changing the number of references of a live node and the references held together. -/
theorem Counted.put_alike {held held' : NodeId → Nat} (hs : Counted s held)
    (hn : s.node n = some nd) (h : nd.Alike nd') (hlive : 0 < nd.refs) (hlock : nd'.lock = false)
    (hrefs : nd'.refs + held n = nd.refs + held' n) (hheld : ∀ m, m ≠ n → held' m = held m) :
    Counted (s.put n (some nd')) held' where
  toTree := hs.toTree.put_alike hn h
  fsExact := by
    obtain ⟨fs, hfs, hunlocked, hcount⟩ := hs.fsExact
    have htotal : (s.put n (some nd')).nodeTotal = s.nodeTotal :=
      node_total_congr (by rfl) fun c => put_is_some hn c
    refine ⟨fs, hfs, hunlocked, ?_⟩
    rw [htotal]
    exact hcount
  exact := fun c cd' hc hclive => by
    obtain ⟨cd, hold, halike, hsame⟩ := put_alike_back hn h hc
    obtain ⟨hclock, hcount⟩ := hs.exact c cd hold (halike.live.mp hclive)
    have hchildren : (s.put n (some nd')).childCount c = s.childCount c :=
      child_count_congr (by rfl) fun m => put_alike_child hn h c m
    have hhandles : (s.put n (some nd')).handleCount c = s.handleCount c := rfl
    rw [hchildren, hhandles]
    by_cases hcn : c = n
    · subst hcn
      obtain rfl : nd = cd := Option.some.inj (hn.symm.trans hold)
      rw [Vfs.put_node_self] at hc
      cases hc
      exact ⟨hlock, by omega⟩
    · rw [hsame hcn, hheld c hcn]
      exact ⟨hclock, hcount⟩
  holds := fun c hc => by
    by_cases hcn : c = n
    · subst hcn
      exact ⟨nd', Vfs.put_node_self s c _, h.live.mpr hlive⟩
    · rw [hheld c hcn] at hc
      rw [Vfs.put_node_of_ne s hcn]
      exact hs.holds c hc
  files := fun f file hf => by
    obtain ⟨hlt, hlive'⟩ := hs.files f file hf
    refine ⟨hlt, fun hfile => ?_⟩
    obtain ⟨hunlocked, md, hm, hmlive⟩ := hlive' hfile
    obtain ⟨md', hnew, halike⟩ := put_alike_forth hn h hm
    exact ⟨hunlocked, md', hnew, halike.live.mpr hmlive⟩

end Alike

section Detach

variable {s : Vfs D} {n p : NodeId} {nd pd : FsNode} {held : NodeId → Nat}

/-- The last reference to a node is the one that is being dropped: the node is not the root, and
nothing else refers to it. -/
theorem Counted.last (hs : Counted s (plus n held)) (hn : s.node n = some nd)
    (hrefs : nd.refs = 1) : n ≠ fsRoot ∧ held n = 0 ∧ s.childCount n = 0 ∧ s.handleCount n = 0 := by
  obtain ⟨-, hcount⟩ := hs.exact n nd hn (by omega)
  rw [plus_self] at hcount
  split at hcount
  · omega
  · next hroot => exact ⟨hroot, by omega, by omega, by omega⟩

/-- The state in which `n` has left the table of `p` and is on its way out. -/
def Vfs.detach (s : Vfs D) (n p : NodeId) (nd pd : FsNode) : Vfs D :=
  (s.put n (some { nd with refs := 0, lock := true })).put p
    (some { pd with children := some (pd.entries.filter fun e => e.1 != nd.name) })

theorem detach_node_self (hne : n ≠ p) :
    (s.detach n p nd pd).node n = some { nd with refs := 0, lock := true } := by
  rw [Vfs.detach, Vfs.put_node_of_ne _ hne, Vfs.put_node_self]

theorem detach_node_parent : (s.detach n p nd pd).node p =
    some { pd with children := some (pd.entries.filter fun e => e.1 != nd.name) } := by
  rw [Vfs.detach, Vfs.put_node_self]

theorem detach_node_of_ne {c : NodeId} (hn : c ≠ n) (hp : c ≠ p) :
    (s.detach n p nd pd).node c = s.node c := by
  rw [Vfs.detach, Vfs.put_node_of_ne _ hp, Vfs.put_node_of_ne _ hn]

/-- A live node of the state without `n`, and what it was before. -/
theorem detach_back (hp : s.node p = some pd) (hne : n ≠ p) {c : NodeId} {cd' : FsNode}
    (hc : (s.detach n p nd pd).node c = some cd') (hlive : 0 < cd'.refs) :
    c ≠ n ∧ ∃ cd, s.node c = some cd ∧ cd'.refs = cd.refs ∧ cd'.lock = cd.lock ∧
      cd'.name = cd.name ∧ cd'.parent = cd.parent := by
  by_cases hcn : c = n
  · subst hcn
    rw [detach_node_self hne] at hc
    cases hc
    exact absurd hlive (by simp)
  · refine ⟨hcn, ?_⟩
    by_cases hcp : c = p
    · subst hcp
      rw [detach_node_parent] at hc
      cases hc
      exact ⟨pd, hp, rfl, rfl, rfl, rfl⟩
    · rw [detach_node_of_ne hcn hcp] at hc
      exact ⟨cd', hc, rfl, rfl, rfl, rfl⟩

/-- What becomes of the other nodes. -/
theorem detach_forth (nd : FsNode) (hp : s.node p = some pd) {c : NodeId} {cd : FsNode} (hcn : c ≠ n)
    (hc : s.node c = some cd) :
    ∃ cd', (s.detach n p nd pd).node c = some cd' ∧ cd'.refs = cd.refs ∧ cd'.lock = cd.lock ∧
      cd'.name = cd.name ∧ cd'.parent = cd.parent ∧ (c ≠ p → cd' = cd) := by
  by_cases hcp : c = p
  · subst hcp
    obtain rfl : pd = cd := Option.some.inj (hp.symm.trans hc)
    exact ⟨_, detach_node_parent, rfl, rfl, rfl, rfl, fun hne => absurd rfl hne⟩
  · exact ⟨cd, (detach_node_of_ne hcn hcp).trans hc, rfl, rfl, rfl, rfl, fun _ => rfl⟩

/-- `n` is the one child less. -/
theorem detach_child (nd : FsNode) (hp : s.node p = some pd) (hne : n ≠ p) (q c : NodeId) :
    (s.detach n p nd pd).Child q c ↔ c ≠ n ∧ s.Child q c := by
  constructor
  · rintro ⟨cd', hc, hlive, hparent⟩
    obtain ⟨hcn, cd, hold, hrefs, -, -, hpar⟩ := detach_back hp hne hc hlive
    exact ⟨hcn, cd, hold, hrefs ▸ hlive, hpar ▸ hparent⟩
  · rintro ⟨hcn, cd, hc, hlive, hparent⟩
    obtain ⟨cd', hnew, hrefs, -, -, hpar, -⟩ := detach_forth nd hp hcn hc
    exact ⟨cd', hnew, hrefs ▸ hlive, hpar.trans hparent⟩

/-- Bindings of one key in a table with distinct keys are one binding. -/
theorem entry_unique {entries : List (Name × NodeId)} (hkeys : (entries.map Prod.fst).Nodup)
    {name : Name} {c c' : NodeId} (hc : (name, c) ∈ entries) (hc' : (name, c') ∈ entries) :
    c = c' :=
  congrArg Prod.snd (List.inj_on_of_nodup_map hkeys hc hc' rfl)

/-- Taking a node without live children out of its parent's table keeps the tree. -/
theorem Tree.detach (ht : Tree s) (hn : s.node n = some nd) (hroot : n ≠ fsRoot)
    (hcount : s.childCount n = 0) (hparent : nd.parent = some p) (hlt : p < n)
    (hp : s.node p = some pd) (hentry : (nd.name, n) ∈ pd.entries) :
    Tree (s.detach n p nd pd) := by
  have hne : n ≠ p := Nat.ne_of_gt hlt
  have hold : ∀ c cd', (s.detach n p nd pd).node c = some cd' → ∃ cd, s.node c = some cd := by
    intro c cd' hc
    by_cases hcn : c = n
    · exact ⟨nd, hcn ▸ hn⟩
    · by_cases hcp : c = p
      · exact ⟨pd, hcp ▸ hp⟩
      · rw [detach_node_of_ne hcn hcp] at hc
        exact ⟨cd', hc⟩
  have hempty := ht.entries_nil hn hcount
  constructor
  · obtain ⟨rd, hrd, hrlive, hrparent⟩ := ht.root
    obtain ⟨rd', hnew, hrefs, -, -, hpar, -⟩ := detach_forth nd hp (Ne.symm hroot) hrd
    exact ⟨rd', hnew, hrefs ▸ hrlive, hpar.trans hrparent⟩
  · intro c cd' hc
    obtain ⟨cd, hcd⟩ := hold c cd' hc
    exact ht.old c cd hcd
  · intro c cd' hc hclive hcroot
    obtain ⟨hcn, cd, hcd, hrefs, -, hname, hpar⟩ := detach_back hp hne hc hclive
    obtain ⟨q, qd, hq, hqlt, hqd, hqlive, hqentry⟩ := ht.bound c cd hcd (hrefs ▸ hclive) hcroot
    have hqn : q ≠ n := fun heq => ht.not_parent hcount hcd (hrefs ▸ hclive) (heq ▸ hq)
    obtain ⟨qd', hnew, hqrefs, -, -, -, hsame⟩ := detach_forth nd hp hqn hqd
    refine ⟨q, qd', hpar.trans hq, hqlt, hnew, hqrefs ▸ hqlive, ?_⟩
    rw [hname]
    by_cases hqp : q = p
    · subst hqp
      obtain rfl : pd = qd := Option.some.inj (hp.symm.trans hqd)
      rw [detach_node_parent] at hnew
      cases hnew
      -- The name of another child of `p` is another key.
      have hkey : cd.name ≠ nd.name := fun heq =>
        hcn (entry_unique (ht.keys q pd hp) (heq ▸ hqentry) hentry)
      exact List.mem_filter.mpr ⟨hqentry, by simpa using hkey⟩
    · rw [hsame hqp]
      exact hqentry
  · intro q qd' hq e he
    have hchild : ∀ cd, s.node e.2 = some cd → e.2 ≠ n → 0 < cd.refs → cd.parent = some q →
        cd.name = e.1 → ∃ cd', (s.detach n p nd pd).node e.2 = some cd' ∧ 0 < cd'.refs ∧
          cd'.parent = some q ∧ cd'.name = e.1 := by
      intro cd hcd hen hclive hcparent hcname
      obtain ⟨cd', hnew, hrefs, -, hname, hpar, -⟩ := detach_forth nd hp hen hcd
      exact ⟨cd', hnew, hrefs ▸ hclive, hpar.trans hcparent, hname.trans hcname⟩
    by_cases hqn : q = n
    · subst hqn
      rw [detach_node_self hne] at hq
      cases hq
      change e ∈ nd.entries at he
      rw [hempty] at he
      cases he
    by_cases hqp : q = p
    · subst hqp
      rw [detach_node_parent] at hq
      cases hq
      obtain ⟨hmem, hkey⟩ := List.mem_filter.mp he
      obtain ⟨cd, hcd, hclive, hcparent, hcname⟩ := ht.entry q pd hp e hmem
      refine hchild cd hcd (fun heq => ?_) hclive hcparent hcname
      obtain rfl : nd = cd := Option.some.inj (hn.symm.trans (heq ▸ hcd))
      rw [hcname] at hkey
      simp at hkey
    · rw [detach_node_of_ne hqn hqp] at hq
      obtain ⟨cd, hcd, hclive, hcparent, hcname⟩ := ht.entry q qd' hq e he
      refine hchild cd hcd (fun heq => ?_) hclive hcparent hcname
      obtain rfl : nd = cd := Option.some.inj (hn.symm.trans (heq ▸ hcd))
      exact hqp (Option.some.inj (hcparent.symm.trans hparent))
  · intro q qd' hq
    by_cases hqn : q = n
    · subst hqn
      rw [detach_node_self hne] at hq
      cases hq
      exact ht.keys q nd hn
    by_cases hqp : q = p
    · subst hqp
      rw [detach_node_parent] at hq
      cases hq
      exact (List.filter_sublist.map _).nodup (ht.keys q pd hp)
    · rw [detach_node_of_ne hqn hqp] at hq
      exact ht.keys q qd' hq

/-- Dropping the last reference to a node turns it into a held reference to its parent, which
the node had. -/
theorem Counted.detach (hs : Counted s (plus n held)) (hn : s.node n = some nd)
    (hrefs : nd.refs = 1) (hparent : nd.parent = some p) (hlt : p < n) (hp : s.node p = some pd)
    (hentry : (nd.name, n) ∈ pd.entries) :
    Counted (s.detach n p nd pd) (plus p held) := by
  obtain ⟨hroot, hheld, hchildren, hhandles⟩ := hs.last hn hrefs
  have hne : n ≠ p := Nat.ne_of_gt hlt
  have hlive : 0 < nd.refs := by omega
  have hchild := detach_child nd hp hne
  refine ⟨hs.toTree.detach hn hroot hchildren hparent hlt hp hentry, ?_, ?_, ?_, ?_⟩
  · obtain ⟨fs, hfs, hunlocked, hcount⟩ := hs.fsExact
    have htotal : (s.detach n p nd pd).nodeTotal = s.nodeTotal := by
      refine node_total_congr (by rfl) fun c => ?_
      by_cases hcp : c = p
      · rw [hcp, detach_node_parent, hp]
        rfl
      · by_cases hcn : c = n
        · rw [hcn, detach_node_self hne, hn]
          rfl
        · rw [detach_node_of_ne hcn hcp]
    refine ⟨fs, hfs, hunlocked, ?_⟩
    rw [htotal]
    exact hcount
  · intro c cd' hc hclive
    obtain ⟨hcn, cd, hcd, hcrefs, hlock, -, -⟩ := detach_back hp hne hc hclive
    obtain ⟨hunlocked, hcount⟩ := hs.exact c cd hcd (hcrefs ▸ hclive)
    rw [plus_of_ne hcn] at hcount
    refine ⟨hlock.trans hunlocked, ?_⟩
    have hsame : (s.detach n p nd pd).handleCount c = s.handleCount c := rfl
    rw [hsame, hcrefs, hcount]
    by_cases hcp : c = p
    · subst hcp
      have hone : s.childCount c = (s.detach n c nd pd).childCount c + 1 :=
        count_insert (hs.old n nd hn) (fun h => ((hchild c n).mp h).1 rfl)
          ⟨nd, hn, hlive, hparent⟩ fun m hm => (hchild c m).trans (and_iff_right hm)
      rw [hone, plus_self]
      omega
    · have hsame : (s.detach n p nd pd).childCount c = s.childCount c := by
        refine child_count_congr (by rfl) fun m => (hchild c m).trans (and_iff_right_of_imp ?_)
        rintro ⟨md, hm, -, hmparent⟩ rfl
        obtain rfl : nd = md := Option.some.inj (hn.symm.trans hm)
        exact hcp (Option.some.inj (hmparent.symm.trans hparent))
      rw [hsame, plus_of_ne hcp]
  · intro c hc
    have hheldc : c = p ∨ 0 < plus n held c ∧ c ≠ n := by
      by_cases hcp : c = p
      · exact .inl hcp
      · rw [plus_of_ne hcp] at hc
        refine .inr ⟨?_, ?_⟩
        · rw [plus]
          omega
        · rintro rfl
          omega
    rcases hheldc with rfl | ⟨hpos, hcn⟩
    · refine ⟨_, detach_node_parent, ?_⟩
      obtain ⟨q, qd, hq, -, hqd, hqlive, -⟩ := hs.bound n nd hn hlive hroot
      obtain rfl : c = q := Option.some.inj (hparent.symm.trans hq)
      obtain rfl : pd = qd := Option.some.inj (hp.symm.trans hqd)
      exact hqlive
    · obtain ⟨cd, hcd, hclive⟩ := hs.holds c hpos
      obtain ⟨cd', hnew, hcrefs, -⟩ := detach_forth nd hp hcn hcd
      exact ⟨cd', hnew, hcrefs ▸ hclive⟩
  · intro f file hf
    obtain ⟨hlt', hfile⟩ := hs.files f file hf
    refine ⟨hlt', fun hflive => ?_⟩
    obtain ⟨hunlocked, md, hm, hmlive⟩ := hfile hflive
    have hmn : file.node ≠ n := fun heq =>
      Nat.count_iff_forall_not.mp hhandles f hlt' ⟨file, hf, hflive, heq⟩
    obtain ⟨md', hnew, hmrefs, -⟩ := detach_forth nd hp hmn hm
    exact ⟨hunlocked, md', hnew, hmrefs ▸ hmlive⟩

end Detach

end Kogata.Kernel
