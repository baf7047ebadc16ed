import Kogata.Kernel.VfsTree

/-!
# Blocks that come and go

What the allocation and the freeing of nodes and handles do to the counts: `fs_walk_one` puts a
new node into the table of its parent (`Counted.insert`), `unref_fs_node` frees one that is on
its way out (`Counted.free`), `fs_open` turns a held reference into a handle
(`Counted.openFile`), and `unref_file` turns it back (`Counted.closeFile`).
-/

namespace Kogata.Kernel

open Lib.Tally

variable {D : Type} {s s' : Vfs D} {held : NodeId → Nat}

/-- The tree only depends on the nodes. -/
theorem Tree.of_same (ht : Tree s) (hnode : s'.node = s.node) (hnext : s'.nextNode = s.nextNode) :
    Tree s' where
  root := by rw [hnode]; exact ht.root
  old := by rw [hnode, hnext]; exact ht.old
  bound := by rw [hnode]; exact ht.bound
  entry := by rw [hnode]; exact ht.entry
  keys := by rw [hnode]; exact ht.keys

/-- The driver's state does not matter. -/
theorem Counted.driver (hs : Counted s held) (driver : D) :
    Counted { s with driver := driver } held where
  toTree := hs.toTree.of_same rfl rfl
  fsExact := hs.fsExact
  exact := hs.exact
  holds := hs.holds
  files := hs.files

section Nodes

variable {n : NodeId} {nd : FsNode} {fs : Fs}

/-- The state in which the block of a node is free and its reference to the file system is
dropped. -/
def Vfs.free (s : Vfs D) (n : NodeId) (fs : Fs) : Vfs D :=
  { s.put n none with fs := some { fs with refs := fs.refs - 1 } }

theorem free_node_self : (s.free n fs).node n = none :=
  Vfs.put_node_self s n none

theorem free_node_of_ne {c : NodeId} (hc : c ≠ n) : (s.free n fs).node c = s.node c :=
  Vfs.put_node_of_ne s hc none

/-- A node that is still there. -/
theorem free_back {c : NodeId} {cd : FsNode} (hc : (s.free n fs).node c = some cd) :
    c ≠ n ∧ s.node c = some cd := by
  by_cases hcn : c = n
  · subst hcn
    rw [free_node_self] at hc
    cases hc
  · exact ⟨hcn, (free_node_of_ne hcn).symm.trans hc⟩

/-- A live node is still there. -/
theorem free_forth (hn : s.node n = some nd) (hdying : ¬ 0 < nd.refs) {c : NodeId} {cd : FsNode}
    (hc : s.node c = some cd) (hlive : 0 < cd.refs) : (s.free n fs).node c = some cd := by
  have hcn : c ≠ n := by
    rintro rfl
    obtain rfl : nd = cd := Option.some.inj (hn.symm.trans hc)
    exact hdying hlive
  exact (free_node_of_ne hcn).trans hc

/-- Freeing a node that is on its way out keeps the tree. -/
theorem Tree.free (ht : Tree s) (hn : s.node n = some nd) (hdying : ¬ 0 < nd.refs) :
    Tree (s.free n fs) where
  root := by
    obtain ⟨rd, hrd, hlive, hparent⟩ := ht.root
    exact ⟨rd, free_forth hn hdying hrd hlive, hlive, hparent⟩
  old := fun c cd hc => ht.old c cd (free_back hc).2
  bound := fun c cd hc hlive hroot => by
    obtain ⟨p, pd, hparent, hlt, hp, hplive, hentry⟩ := ht.bound c cd (free_back hc).2 hlive hroot
    exact ⟨p, pd, hparent, hlt, free_forth hn hdying hp hplive, hplive, hentry⟩
  entry := fun p pd hp e he => by
    obtain ⟨cd, hc, hlive, hrest⟩ := ht.entry p pd (free_back hp).2 e he
    exact ⟨cd, free_forth hn hdying hc hlive, hlive, hrest⟩
  keys := fun p pd hp => ht.keys p pd (free_back hp).2

/-- Freeing such a node together with its reference to the file system keeps the counts. -/
theorem Counted.free (hs : Counted s held) (hn : s.node n = some nd) (hdying : ¬ 0 < nd.refs)
    (hroot : n ≠ fsRoot) (hfs : s.fs = some fs) : Counted (s.free n fs) held where
  toTree := hs.toTree.free hn hdying
  fsExact := by
    obtain ⟨fs', hfs', hunlocked, hcount⟩ := hs.fsExact
    obtain rfl : fs = fs' := Option.some.inj (hfs.symm.trans hfs')
    have hone : s.nodeTotal = (s.free n fs).nodeTotal + 1 := by
      refine count_insert (hs.old n nd hn) (fun h => ?_) ⟨hroot, by rw [hn]; rfl⟩ fun c hc => ?_
      · have hgone := h.2
        rw [free_node_self] at hgone
        cases hgone
      · rw [Vfs.Below, Vfs.Below, free_node_of_ne hc]
    have hsame : (s.free n fs).handleTotal = s.handleTotal := rfl
    refine ⟨_, rfl, hunlocked, ?_⟩
    show fs.refs - 1 = _
    rw [hsame]
    omega
  exact := fun c cd hc hlive => by
    obtain ⟨hcn, hold⟩ := free_back hc
    have hsame : (s.free n fs).childCount c = s.childCount c := by
      refine child_count_congr (by rfl) fun m => ⟨?_, ?_⟩
      · rintro ⟨md, hm, hrest⟩
        exact ⟨md, (free_back hm).2, hrest⟩
      · rintro ⟨md, hm, hmlive, hparent⟩
        exact ⟨md, free_forth hn hdying hm hmlive, hmlive, hparent⟩
    rw [hsame]
    exact hs.exact c cd hold hlive
  holds := fun c hc => by
    obtain ⟨cd, hcd, hlive⟩ := hs.holds c hc
    exact ⟨cd, free_forth hn hdying hcd hlive, hlive⟩
  files := fun f file hf => by
    obtain ⟨hlt, hfile⟩ := hs.files f file hf
    refine ⟨hlt, fun hflive => ?_⟩
    obtain ⟨hunlocked, md, hm, hmlive⟩ := hfile hflive
    exact ⟨hunlocked, md, free_forth hn hdying hm hmlive, hmlive⟩

end Nodes

section Insert

variable {base : NodeId} {bd : FsNode} {name : Name} {fs : Fs}

/-- Nothing is at the next identity yet. -/
theorem Tree.next_free (ht : Tree s) : s.node s.nextNode = none := by
  cases hnode : s.node s.nextNode with
  | none => rfl
  | some nd => exact absurd (ht.old _ nd hnode) (Nat.lt_irrefl _)

/-- The block of a new node with one reference. -/
def FsNode.fresh (base : NodeId) (name : Name) : FsNode :=
  { refs := 1, lock := false, name := name, children := none, parent := some base }

/-- The block of its parent, which has one more reference. -/
def FsNode.parentOf (bd : FsNode) (name : Name) (c : NodeId) : FsNode :=
  { bd.bind name c with refs := bd.refs + 1 }

/-- The state in which `fs_walk_one` has put a new node into the table of its parent. -/
def Vfs.insert (s : Vfs D) (base : NodeId) (bd : FsNode) (name : Name) (fs : Fs) : Vfs D :=
  { s with
    node := Function.update (Function.update s.node s.nextNode (some (.fresh base name))) base
      (some (bd.parentOf name s.nextNode))
    nextNode := s.nextNode + 1
    fs := some { fs with refs := fs.refs + 1 } }

/-- Without a binding of the name, nothing is removed from the table. -/
theorem entries_parent_of (hfind : bd.find name = none) (c : NodeId) :
    (bd.parentOf name c).entries = (name, c) :: bd.entries := by
  have hnot : ∀ e ∈ bd.entries, (e.1 != name) = true := by
    intro e he
    have hne : name ≠ e.1 := by
      intro heq
      have hlookup := List.lookup_eq_none_iff.mp hfind e he
      simp [heq] at hlookup
    simpa using Ne.symm hne
  show (name, c) :: bd.entries.filter (fun e => e.1 != name) = _
  rw [List.filter_eq_self.mpr hnot]

/-- A name without a binding is no key. -/
theorem not_key_of_find (hfind : bd.find name = none) : name ∉ bd.entries.map Prod.fst := by
  intro hmem
  obtain ⟨e, he, rfl⟩ := List.mem_map.mp hmem
  have hlookup := List.lookup_eq_none_iff.mp hfind e he
  simp at hlookup

theorem insert_node_base (name : Name) (fs : Fs) (ht : Tree s) (hb : s.node base = some bd) :
    base ≠ s.nextNode ∧ (s.insert base bd name fs).node base = some (bd.parentOf name s.nextNode) :=
  ⟨Nat.ne_of_lt (ht.old _ _ hb), Function.update_self ..⟩

theorem insert_node_new (bd : FsNode) (name : Name) (fs : Fs) (hne : base ≠ s.nextNode) :
    (s.insert base bd name fs).node s.nextNode = some (.fresh base name) := by
  show Function.update (Function.update s.node s.nextNode _) base _ s.nextNode = _
  rw [Function.update_of_ne (Ne.symm hne), Function.update_self]

theorem insert_node_of_ne {c : NodeId} (hb : c ≠ base) (hn : c ≠ s.nextNode) :
    (s.insert base bd name fs).node c = s.node c := by
  show Function.update (Function.update s.node s.nextNode _) base _ c = _
  rw [Function.update_of_ne hb, Function.update_of_ne hn]

/-- A node of the new state is the new one, or one from before. -/
theorem insert_back (ht : Tree s) (hb : s.node base = some bd) {c : NodeId} {cd' : FsNode}
    (hc : (s.insert base bd name fs).node c = some cd') :
    (c = s.nextNode ∧ cd' = .fresh base name) ∨ (c ≠ s.nextNode ∧ ∃ cd, s.node c = some cd ∧
      cd'.name = cd.name ∧ cd'.parent = cd.parent ∧ cd'.lock = cd.lock ∧
      (c = base ∧ cd' = bd.parentOf name s.nextNode ∧ cd = bd ∨ c ≠ base ∧ cd' = cd)) := by
  obtain ⟨hne, hbase⟩ := insert_node_base name fs ht hb
  by_cases hcn : c = s.nextNode
  · subst hcn
    rw [insert_node_new _ _ _ hne] at hc
    exact .inl ⟨rfl, (Option.some.inj hc).symm⟩
  · refine .inr ⟨hcn, ?_⟩
    by_cases hcb : c = base
    · subst hcb
      rw [hbase] at hc
      cases hc
      exact ⟨bd, hb, rfl, rfl, rfl, .inl ⟨rfl, rfl, rfl⟩⟩
    · rw [insert_node_of_ne hcb hcn] at hc
      exact ⟨cd', hc, rfl, rfl, rfl, .inr ⟨hcb, rfl⟩⟩

/-- A node from before is still there; the parent has one more reference. -/
theorem insert_forth (name : Name) (fs : Fs) (ht : Tree s) (hb : s.node base = some bd)
    {c : NodeId} {cd : FsNode} (hc : s.node c = some cd) :
    ∃ cd', (s.insert base bd name fs).node c = some cd' ∧ cd.refs ≤ cd'.refs ∧
      cd'.name = cd.name ∧ cd'.parent = cd.parent ∧
      (c = base ∧ cd' = bd.parentOf name s.nextNode ∨ c ≠ base ∧ cd' = cd) := by
  obtain ⟨-, hbase⟩ := insert_node_base name fs ht hb
  by_cases hcb : c = base
  · subst hcb
    obtain rfl : bd = cd := Option.some.inj (hb.symm.trans hc)
    refine ⟨_, hbase, ?_, rfl, rfl, .inl ⟨rfl, rfl⟩⟩
    show bd.refs ≤ bd.refs + 1
    omega
  · have hcn : c ≠ s.nextNode := Nat.ne_of_lt (ht.old _ _ hc)
    exact ⟨cd, (insert_node_of_ne hcb hcn).trans hc, le_refl _, rfl, rfl, .inr ⟨hcb, rfl⟩⟩

/-- The live nodes are those from before and the new one. -/
theorem insert_live_back (ht : Tree s) (hb : s.node base = some bd) (hblive : 0 < bd.refs)
    {c : NodeId} {cd' : FsNode} (hc : (s.insert base bd name fs).node c = some cd')
    (hlive : 0 < cd'.refs) :
    (c = s.nextNode ∧ cd' = .fresh base name) ∨ ∃ cd, s.node c = some cd ∧ 0 < cd.refs ∧
      c ≠ s.nextNode ∧ cd'.name = cd.name ∧ cd'.parent = cd.parent ∧ cd'.lock = cd.lock ∧
      cd'.refs = cd.refs + if c = base then 1 else 0 := by
  obtain hnew | ⟨hcn, cd, hcd, hname, hparent, hlock, hcase⟩ := insert_back ht hb hc
  · exact .inl hnew
  · refine .inr ⟨cd, hcd, ?_, hcn, hname, hparent, hlock, ?_⟩
    · obtain ⟨-, -, rfl⟩ | ⟨-, rfl⟩ := hcase
      · exact hblive
      · exact hlive
    · obtain ⟨rfl, rfl, rfl⟩ | ⟨hcb, rfl⟩ := hcase
      · simp [FsNode.parentOf]
      · simp [hcb]

/-- A new node in the table of its live parent keeps the tree. -/
theorem Tree.insert (ht : Tree s) (hb : s.node base = some bd) (hblive : 0 < bd.refs)
    (hfind : bd.find name = none) : Tree (s.insert base bd name fs) := by
  obtain ⟨hne, hbase⟩ := insert_node_base name fs ht hb
  have hentries := entries_parent_of hfind s.nextNode
  constructor
  · obtain ⟨rd, hrd, hlive, hparent⟩ := ht.root
    obtain ⟨rd', hnew, hrefs, -, hpar, -⟩ := insert_forth name fs ht hb hrd
    exact ⟨rd', hnew, by omega, hpar.trans hparent⟩
  · intro c cd' hc
    show c < s.nextNode + 1
    obtain ⟨rfl, -⟩ | ⟨-, cd, hcd, -⟩ := insert_back ht hb hc
    · exact Nat.lt_succ_self _
    · exact Nat.lt_succ_of_lt (ht.old c cd hcd)
  · intro c cd' hc hlive hroot
    obtain ⟨rfl, rfl⟩ | ⟨cd, hcd, hclive, -, hname, hpar, -, -⟩ :=
      insert_live_back ht hb hblive hc hlive
    · refine ⟨base, _, rfl, ht.old _ _ hb, hbase, ?_, ?_⟩
      · exact Int.add_pos hblive Int.zero_lt_one
      · rw [hentries]
        exact List.mem_cons_self
    · obtain ⟨p, pd, hp, hlt, hpd, hplive, hentry⟩ := ht.bound c cd hcd hclive hroot
      obtain ⟨pd', hnew, hrefs, -, -, hcase⟩ := insert_forth name fs ht hb hpd
      refine ⟨p, pd', hpar.trans hp, hlt, hnew, by omega, ?_⟩
      rw [hname]
      obtain ⟨rfl, rfl⟩ | ⟨-, rfl⟩ := hcase
      · obtain rfl : bd = pd := Option.some.inj (hb.symm.trans hpd)
        rw [hentries]
        exact List.mem_cons_of_mem _ hentry
      · exact hentry
  · intro p pd' hp e he
    have hchild : ∀ q, (∃ cd, s.node e.2 = some cd ∧ 0 < cd.refs ∧ cd.parent = some q ∧
          cd.name = e.1) → ∃ cd', (s.insert base bd name fs).node e.2 = some cd' ∧ 0 < cd'.refs ∧
          cd'.parent = some q ∧ cd'.name = e.1 := by
      rintro q ⟨cd, hcd, hclive, hcparent, hcname⟩
      obtain ⟨cd', hnew, hrefs, hname, hpar, -⟩ := insert_forth name fs ht hb hcd
      exact ⟨cd', hnew, by omega, hpar.trans hcparent, hname.trans hcname⟩
    obtain ⟨rfl, rfl⟩ | ⟨-, pd, hpd, -, -, -, hcase⟩ := insert_back ht hb hp
    · cases he
    · obtain ⟨rfl, rfl, rfl⟩ | ⟨-, rfl⟩ := hcase
      · rw [hentries] at he
        rcases List.mem_cons.mp he with rfl | he
        · exact ⟨_, insert_node_new _ _ _ hne, Int.zero_lt_one, rfl, rfl⟩
        · exact hchild p (ht.entry p pd hpd e he)
      · exact hchild p (ht.entry p pd' hpd e he)
  · intro p pd' hp
    obtain ⟨rfl, rfl⟩ | ⟨-, pd, hpd, -, -, -, hcase⟩ := insert_back ht hb hp
    · exact List.nodup_nil
    · obtain ⟨rfl, rfl, rfl⟩ | ⟨-, rfl⟩ := hcase
      · rw [hentries]
        exact List.nodup_cons.mpr ⟨not_key_of_find hfind, ht.keys p pd hpd⟩
      · exact ht.keys p pd' hpd

/-- A new node in the table of its live parent is held once. -/
theorem Counted.insert (hs : Counted s held) (hb : s.node base = some bd) (hblive : 0 < bd.refs)
    (hfind : bd.find name = none) (hfs : s.fs = some fs) :
    Counted (s.insert base bd name fs) (plus s.nextNode held) := by
  have ht := hs.toTree
  obtain ⟨hne, hbase⟩ := insert_node_base name fs ht hb
  have hnew := insert_node_new bd name fs hne
  have hnone := ht.next_free
  -- Below the new identity, the children are the ones from before.
  have hbelow : ∀ q c, c ≠ s.nextNode → ((s.insert base bd name fs).Child q c ↔ s.Child q c) := by
    intro q c hcn
    constructor
    · rintro ⟨cd', hc, hlive, hparent⟩
      obtain ⟨rfl, -⟩ | ⟨cd, hcd, hclive, -, -, hpar, -, -⟩ := insert_live_back ht hb hblive hc hlive
      · exact absurd rfl hcn
      · exact ⟨cd, hcd, hclive, hpar ▸ hparent⟩
    · rintro ⟨cd, hcd, hclive, hparent⟩
      obtain ⟨cd', hc, hrefs, -, hpar, -⟩ := insert_forth name fs ht hb hcd
      exact ⟨cd', hc, by omega, hpar.trans hparent⟩
  have hcount : ∀ q, (s.insert base bd name fs).childCount q =
      s.childCount q + if q = base then 1 else 0 := by
    intro q
    show Nat.count _ (s.nextNode + 1) = _
    rw [Nat.count_succ]
    congr 1
    · exact count_congr fun c hc => hbelow q c (Nat.ne_of_lt hc)
    · refine if_congr ?_ rfl rfl
      constructor
      · rintro ⟨cd, hc, -, hparent⟩
        rw [hnew] at hc
        cases hc
        exact (Option.some.inj hparent).symm
      · rintro rfl
        exact ⟨_, hnew, Int.zero_lt_one, rfl⟩
  have hheldnew : held s.nextNode = 0 := by
    by_contra hheld
    obtain ⟨nd, hn, -⟩ := hs.holds s.nextNode (Nat.pos_of_ne_zero hheld)
    rw [hnone] at hn
    cases hn
  refine ⟨ht.insert hb hblive hfind, ?_, ?_, ?_, ?_⟩
  · obtain ⟨fs', hfs', hunlocked, htotal⟩ := hs.fsExact
    obtain rfl : fs = fs' := Option.some.inj (hfs.symm.trans hfs')
    have hone : (s.insert base bd name fs).nodeTotal = s.nodeTotal + 1 := by
      show Nat.count _ (s.nextNode + 1) = _
      have hlast : (s.insert base bd name fs).Below s.nextNode := by
        obtain ⟨rd, hrd, -⟩ := ht.root
        exact ⟨Nat.ne_of_gt (ht.old _ _ hrd), by rw [hnew]; rfl⟩
      rw [Nat.count_succ, if_pos hlast]
      refine congrArg (· + 1) (count_congr fun c hc => ?_)
      rw [Vfs.Below, Vfs.Below]
      by_cases hcb : c = base
      · rw [hcb, hbase, hb]
        rfl
      · rw [insert_node_of_ne hcb (Nat.ne_of_lt hc)]
    have hsame : (s.insert base bd name fs).handleTotal = s.handleTotal := rfl
    refine ⟨_, rfl, hunlocked, ?_⟩
    show fs.refs + 1 = _
    rw [hone, hsame]
    omega
  · intro c cd' hc hlive
    have hsame : (s.insert base bd name fs).handleCount c = s.handleCount c := rfl
    rw [hcount, hsame]
    obtain ⟨rfl, rfl⟩ | ⟨cd, hcd, hclive, hcn, -, -, hlock, hrefs⟩ :=
      insert_live_back ht hb hblive hc hlive
    · have hchildren : s.childCount s.nextNode = 0 := by
        refine Nat.count_iff_forall_not.mpr fun m hm => ?_
        rintro ⟨md, hmd, hmlive, hparent⟩
        obtain ⟨p, pd, hp, -, hpd, -⟩ := ht.bound m md hmd hmlive (by
          rintro rfl
          obtain ⟨rd, hrd, -, hroot⟩ := ht.root
          obtain rfl : rd = md := Option.some.inj (hrd.symm.trans hmd)
          rw [hroot] at hparent
          cases hparent)
        obtain rfl : s.nextNode = p := Option.some.inj (hparent.symm.trans hp)
        rw [hnone] at hpd
        cases hpd
      have hhandles : s.handleCount s.nextNode = 0 := by
        refine Nat.count_iff_forall_not.mpr fun f hf => ?_
        rintro ⟨file, hfile, hflive, hnode⟩
        obtain ⟨-, nd, hnd, -⟩ := (hs.files f file hfile).2 hflive
        rw [hnode, hnone] at hnd
        cases hnd
      obtain ⟨rd, hrd, -⟩ := ht.root
      have hroot : s.nextNode ≠ fsRoot := Nat.ne_of_gt (ht.old _ _ hrd)
      refine ⟨rfl, ?_⟩
      rw [hchildren, hhandles, plus_self, hheldnew, if_neg (Ne.symm hne), if_neg hroot]
      rfl
    · obtain ⟨hunlocked, hexact⟩ := hs.exact c cd hcd hclive
      refine ⟨hlock.trans hunlocked, ?_⟩
      rw [hrefs, hexact, plus_of_ne hcn]
      by_cases hcb : c = base
      · rw [if_pos hcb, if_pos hcb]
        omega
      · rw [if_neg hcb, if_neg hcb]
        omega
  · intro c hc
    by_cases hcn : c = s.nextNode
    · subst hcn
      exact ⟨_, hnew, Int.zero_lt_one⟩
    · rw [plus_of_ne hcn] at hc
      obtain ⟨cd, hcd, hclive⟩ := hs.holds c hc
      obtain ⟨cd', hc', hrefs, -⟩ := insert_forth name fs ht hb hcd
      exact ⟨cd', hc', by omega⟩
  · intro f file hf
    obtain ⟨hlt, hfile⟩ := hs.files f file hf
    refine ⟨hlt, fun hflive => ?_⟩
    obtain ⟨hunlocked, md, hm, hmlive⟩ := hfile hflive
    obtain ⟨md', hm', hrefs, -⟩ := insert_forth name fs ht hb hm
    exact ⟨hunlocked, md', hm', by omega⟩

end Insert

/-- An identity that was given out and whose block is free again. -/
theorem Counted.skip (hs : Counted s held) : Counted { s with nextNode := s.nextNode + 1 } held := by
  have hnone := hs.toTree.next_free
  have hchildren : ∀ n, Vfs.childCount { s with nextNode := s.nextNode + 1 } n = s.childCount n := by
    intro n
    refine count_succ_of_not ?_
    rintro ⟨cd, hc, -⟩
    change s.node s.nextNode = some cd at hc
    rw [hnone] at hc
    cases hc
  constructor
  · constructor
    · exact hs.root
    · exact fun n nd hn => Nat.lt_succ_of_lt (hs.old n nd hn)
    · exact hs.bound
    · exact hs.entry
    · exact hs.keys
  · obtain ⟨fs, hfs, hunlocked, hcount⟩ := hs.fsExact
    have htotal : Vfs.nodeTotal { s with nextNode := s.nextNode + 1 } = s.nodeTotal := by
      refine count_succ_of_not ?_
      rintro ⟨-, hsome⟩
      change (s.node s.nextNode).isSome at hsome
      rw [hnone] at hsome
      cases hsome
    refine ⟨fs, hfs, hunlocked, ?_⟩
    rw [htotal]
    exact hcount
  · intro n nd hn hlive
    rw [hchildren]
    exact hs.exact n nd hn hlive
  · exact hs.holds
  · exact hs.files

section Files

variable {h : HandleId} {n : NodeId} {file : OpenFile} {fs : Fs}

/-- The state in which `fs_open` has made a handle. -/
def Vfs.openFile (s : Vfs D) (n : NodeId) (mode : UInt32) (fs : Fs) : Vfs D :=
  { s with
    handle := Function.update s.handle s.nextHandle
      (some { refs := 1, lock := false, node := n, mode := mode })
    nextHandle := s.nextHandle + 1
    fs := some { fs with refs := fs.refs + 1 } }

/-- A new handle takes over a reference that was held. -/
theorem Counted.openFile (hs : Counted s (plus n held)) (hfs : s.fs = some fs) (mode : UInt32) :
    Counted (s.openFile n mode fs) held := by
  have hnew : (s.openFile n mode fs).handle s.nextHandle =
      some { refs := 1, lock := false, node := n, mode := mode } := Function.update_self ..
  have hsame : ∀ f, f ≠ s.nextHandle → (s.openFile n mode fs).handle f = s.handle f :=
    fun f hf => Function.update_of_ne hf ..
  have hcount : ∀ q, (s.openFile n mode fs).handleCount q =
      s.handleCount q + if q = n then 1 else 0 := by
    intro q
    show Nat.count _ (s.nextHandle + 1) = _
    rw [Nat.count_succ]
    congr 1
    · refine count_congr fun f hf => ?_
      rw [Vfs.Opens, Vfs.Opens, hsame f (Nat.ne_of_lt hf)]
    · refine if_congr ?_ rfl rfl
      constructor
      · rintro ⟨file, hf, -, hnode⟩
        rw [hnew] at hf
        cases hf
        exact hnode.symm
      · rintro rfl
        exact ⟨_, hnew, Int.zero_lt_one, rfl⟩
  refine ⟨hs.toTree.of_same rfl rfl, ?_, ?_, ?_, ?_⟩
  · obtain ⟨fs', hfs', hunlocked, htotal⟩ := hs.fsExact
    obtain rfl : fs = fs' := Option.some.inj (hfs.symm.trans hfs')
    have hone : (s.openFile n mode fs).handleTotal = s.handleTotal + 1 := by
      show Nat.count _ (s.nextHandle + 1) = _
      have hlast : (s.openFile n mode fs).Held s.nextHandle := by
        rw [Vfs.Held, hnew]
        rfl
      rw [Nat.count_succ, if_pos hlast]
      refine congrArg (· + 1) (count_congr fun f hf => ?_)
      rw [Vfs.Held, Vfs.Held, hsame f (Nat.ne_of_lt hf)]
    have hnodes : (s.openFile n mode fs).nodeTotal = s.nodeTotal := rfl
    refine ⟨_, rfl, hunlocked, ?_⟩
    show fs.refs + 1 = _
    rw [hone, hnodes]
    omega
  · intro c cd hc hlive
    obtain ⟨hunlocked, hexact⟩ := hs.exact c cd hc hlive
    have hchildren : (s.openFile n mode fs).childCount c = s.childCount c := rfl
    refine ⟨hunlocked, ?_⟩
    rw [hexact, hcount, hchildren, plus]
    by_cases hcn : c = n
    · rw [if_pos hcn]
      omega
    · rw [if_neg hcn]
      omega
  · intro c hc
    exact hs.holds c (Nat.lt_of_lt_of_le hc (Nat.le_add_right _ _))
  · intro f file hf
    show f < s.nextHandle + 1 ∧ _
    by_cases hfn : f = s.nextHandle
    · subst hfn
      rw [hnew] at hf
      cases hf
      refine ⟨Nat.lt_succ_self _, fun _ => ⟨rfl, hs.holds n ?_⟩⟩
      rw [plus_self]
      exact Nat.succ_pos _
    · rw [hsame f hfn] at hf
      obtain ⟨hlt, hfile⟩ := hs.files f file hf
      exact ⟨Nat.lt_succ_of_lt hlt, hfile⟩

/-- The state with the block of a handle written or freed. -/
def Vfs.putFile (s : Vfs D) (h : HandleId) (file : Option OpenFile) : Vfs D :=
  { s with handle := Function.update s.handle h file }

@[simp] theorem Vfs.put_file_self (s : Vfs D) (h : HandleId) (file : Option OpenFile) :
    (s.putFile h file).handle h = file := by
  simp [Vfs.putFile]

@[simp] theorem Vfs.put_file_of_ne (s : Vfs D) {h f : HandleId} (hf : f ≠ h)
    (file : Option OpenFile) : (s.putFile h file).handle f = s.handle f := by
  simp [Vfs.putFile, hf]

/-- As many handles are there as before when the block of one is written. -/
theorem Vfs.handle_total_put_file {file' : OpenFile} (hf : s.handle h = some file) :
    (s.putFile h (some file')).handleTotal = s.handleTotal := by
  refine count_congr fun f _ => ?_
  rw [Vfs.Held, Vfs.Held]
  by_cases hfh : f = h
  · subst hfh
    rw [Vfs.put_file_self, hf]
    rfl
  · rw [Vfs.put_file_of_ne s hfh]

/-- Changing the number of references of a handle that stays alive. -/
theorem Counted.put_file (hs : Counted s held) (hf : s.handle h = some file)
    (hlive : 0 < file.refs) {refs : Int} (hrefs : 0 < refs) :
    Counted (s.putFile h (some { file with refs := refs })) held := by
  have hopens : ∀ q f, (s.putFile h (some { file with refs := refs })).Opens q f ↔ s.Opens q f := by
    intro q f
    rw [Vfs.Opens, Vfs.Opens]
    by_cases hfh : f = h
    · subst hfh
      rw [Vfs.put_file_self, hf]
      simp [hlive, hrefs]
    · rw [Vfs.put_file_of_ne s hfh]
  refine ⟨hs.toTree.of_same rfl rfl, ?_, ?_, hs.holds, ?_⟩
  · obtain ⟨fs, hfs, hunlocked, hcount⟩ := hs.fsExact
    refine ⟨fs, hfs, hunlocked, ?_⟩
    rw [Vfs.handle_total_put_file hf]
    exact hcount
  · intro c cd hc hclive
    have hhandles : (s.putFile h (some { file with refs := refs })).handleCount c =
        s.handleCount c := count_congr fun f _ => hopens c f
    rw [hhandles]
    exact hs.exact c cd hc hclive
  · intro f file' hf'
    by_cases hfh : f = h
    · subst hfh
      rw [Vfs.put_file_self] at hf'
      cases hf'
      obtain ⟨hlt, hfile⟩ := hs.files f file hf
      exact ⟨hlt, fun _ => hfile hlive⟩
    · rw [Vfs.put_file_of_ne s hfh] at hf'
      exact hs.files f file' hf'

/-- Closing a handle leaves the reference that it had, as a held one. -/
theorem Counted.closeFile (hs : Counted s held) (hf : s.handle h = some file)
    (hlive : 0 < file.refs) :
    Counted (s.putFile h (some { file with refs := 0, lock := true })) (plus file.node held) := by
  have hopens : ∀ q f, (s.putFile h (some { file with refs := 0, lock := true })).Opens q f ↔
      f ≠ h ∧ s.Opens q f := by
    intro q f
    rw [Vfs.Opens, Vfs.Opens]
    by_cases hfh : f = h
    · subst hfh
      rw [Vfs.put_file_self]
      simp
    · rw [Vfs.put_file_of_ne s hfh]
      simp [hfh]
  obtain ⟨hlt, hfile⟩ := hs.files h file hf
  obtain ⟨hfunlocked, nd, hn, hnlive⟩ := hfile hlive
  refine ⟨hs.toTree.of_same rfl rfl, ?_, ?_, ?_, ?_⟩
  · obtain ⟨fs, hfs, hunlocked, hcount⟩ := hs.fsExact
    refine ⟨fs, hfs, hunlocked, ?_⟩
    rw [Vfs.handle_total_put_file hf]
    exact hcount
  · intro c cd hc hclive
    obtain ⟨hunlocked, hexact⟩ := hs.exact c cd hc hclive
    refine ⟨hunlocked, ?_⟩
    have hchildren : (s.putFile h (some { file with refs := 0, lock := true })).childCount c =
        s.childCount c := rfl
    rw [hexact, hchildren]
    by_cases hcn : c = file.node
    · have hone : s.handleCount c =
          (s.putFile h (some { file with refs := 0, lock := true })).handleCount c + 1 :=
        count_insert hlt (fun hgone => ((hopens c h).mp hgone).1 rfl)
          ⟨file, hf, hlive, hcn.symm⟩ fun f hfh => (hopens c f).trans (and_iff_right hfh)
      rw [hone, ← hcn, plus_self]
      omega
    · have hsame : (s.putFile h (some { file with refs := 0, lock := true })).handleCount c =
          s.handleCount c := by
        refine count_congr fun f _ => (hopens c f).trans (and_iff_right_of_imp ?_)
        rintro ⟨file', hf', -, hnode⟩ rfl
        obtain rfl : file = file' := Option.some.inj (hf.symm.trans hf')
        exact hcn hnode.symm
      rw [hsame, plus_of_ne hcn]
  · intro c hc
    by_cases hcn : c = file.node
    · exact ⟨nd, hcn ▸ hn, hnlive⟩
    · rw [plus_of_ne hcn] at hc
      exact hs.holds c hc
  · intro f file' hf'
    by_cases hfh : f = h
    · subst hfh
      rw [Vfs.put_file_self] at hf'
      cases hf'
      exact ⟨hlt, fun hpos => absurd hpos (by simp)⟩
    · rw [Vfs.put_file_of_ne s hfh] at hf'
      exact hs.files f file' hf'

/-- Freeing a closed handle together with its reference to the file system keeps the counts. -/
theorem Counted.freeFile (hs : Counted s held) (hf : s.handle h = some file)
    (hclosed : ¬ 0 < file.refs) (hfs : s.fs = some fs) :
    Counted { s.putFile h none with fs := some { fs with refs := fs.refs - 1 } } held := by
  have hhandles : ∀ c, Vfs.handleCount
      { s.putFile h none with fs := some { fs with refs := fs.refs - 1 } } c = s.handleCount c := by
    intro c
    refine count_congr fun f _ => ?_
    rw [Vfs.Opens, Vfs.Opens]
    show (∃ file, (s.putFile h none).handle f = some file ∧ _) ↔ _
    by_cases hfh : f = h
    · subst hfh
      rw [Vfs.put_file_self, hf]
      simp [hclosed]
    · rw [Vfs.put_file_of_ne s hfh]
  refine ⟨hs.toTree.of_same rfl rfl, ?_, ?_, hs.holds, ?_⟩
  · obtain ⟨fs', hfs', hunlocked, hcount⟩ := hs.fsExact
    obtain rfl : fs = fs' := Option.some.inj (hfs.symm.trans hfs')
    have hone : s.handleTotal = (s.putFile h none).handleTotal + 1 := by
      refine count_insert (hs.files h file hf).1 ?_ (by rw [Vfs.Held, hf]; rfl) fun f hfh => ?_
      · rw [Vfs.Held, Vfs.put_file_self]
        exact Bool.false_ne_true
      · rw [Vfs.Held, Vfs.Held, Vfs.put_file_of_ne s hfh]
    refine ⟨_, rfl, hunlocked, ?_⟩
    show fs.refs - 1 = 1 + (s.nodeTotal : Int) + (s.putFile h none).handleTotal
    omega
  · intro c cd hc hclive
    rw [hhandles]
    exact hs.exact c cd hc hclive
  · intro f file' hf'
    by_cases hfh : f = h
    · subst hfh
      change (s.putFile f none).handle f = some file' at hf'
      rw [Vfs.put_file_self] at hf'
      cases hf'
    · change (s.putFile h none).handle f = some file' at hf'
      rw [Vfs.put_file_of_ne s hfh] at hf'
      exact hs.files f file' hf'

end Files

end Kogata.Kernel
