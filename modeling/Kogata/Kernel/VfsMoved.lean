import Kogata.Kernel.VfsExact
import Kogata.Kernel.VfsTransaction

/-!
# When moving keeps its promise

`fs_move` between two different directories, from any consistent tree: it does what a transaction
has to do exactly where it fails without having touched a name that was bound.
-/

namespace Kogata.Kernel

open Lib.Effect Lib.Run Lib.Tally

variable {D : Type} {d : MoveDriver D} {mem : MoveMemory} {held : NodeId → Nat}
  {op np : NodeId} {on nn : Name}

theorem logged_silent (d : MoveDriver D) : d.logged.toDriver.Silent Prod.snd :=
  ⟨fun _ _ _ _ => rfl, fun _ _ => rfl, fun _ => rfl⟩

/-- Both walks have come to their directories, which are held. -/
structure Reached (held : NodeId → Nat) (s t : Vfs (D × List MoveCall)) (op np : NodeId) :
    Prop where
  start : Counted s held
  settled : Settled s
  counted : Counted t (plus np (plus op held))
  quiet : Quiet s t
  stable : Stable Prod.snd s t
  ne : op ≠ np

section Walks

variable {s s₁ t : Vfs (D × List MoveCall)}

/-- A walk from the root of the file system, which somebody holds. -/
theorem walk_reaches (d : MoveDriver D) {root n : NodeId} {path name : Name}
    (hs : Counted s held) (hroot : root = fsRoot ∨ 0 < held root)
    (hwalk : fsWalkPathExceptLast d.logged.toDriver root path s = .ok (some (n, name), t)) :
    Counted t (plus n held) ∧ Quiet s t ∧ Stable Prod.snd s t := by
  have hlive : ∃ nd, s.node root = some nd ∧ 0 < nd.refs := by
    rcases hroot with rfl | hheld
    · obtain ⟨nd, hn, hlive, -⟩ := hs.root
      exact ⟨nd, hn, hlive⟩
    · exact hs.holds root hheld
  obtain ⟨nd, hn, hlive⟩ := hlive
  obtain ⟨found, s', hrun, hcounted, hquiet⟩ :=
    walk_path_except_last_yields d.logged.toDriver path hs hn hlive
  rw [hwalk] at hrun
  cases hrun
  exact ⟨hcounted, hquiet, stable_walk_path_except_last (logged_silent d) root path _ _ _ hwalk⟩

theorem reached_of_walks (d : MoveDriver D) {root : NodeId} {old new : Name}
    (hs : Counted s held) (hsettled : Settled s) (hroot : root = fsRoot ∨ 0 < held root)
    (hold : fsWalkPathExceptLast d.logged.toDriver root old s = .ok (some (op, on), s₁))
    (hnew : fsWalkPathExceptLast d.logged.toDriver root new s₁ = .ok (some (np, nn), t))
    (hne : op ≠ np) : Reached held s t op np := by
  obtain ⟨hs₁, hquiet₁, hstable₁⟩ := walk_reaches d hs hroot hold
  have hroot' : root = fsRoot ∨ 0 < plus op held root :=
    hroot.imp_right fun hheld => Nat.lt_of_lt_of_le hheld (Nat.le_add_right ..)
  obtain ⟨ht, hquiet₂, hstable₂⟩ := walk_reaches d hs₁ hroot' hnew
  exact ⟨hs, hsettled, ht, hquiet₁.trans hquiet₂, trans_of (Stable Prod.snd) hstable₁ hstable₂, hne⟩

end Walks

section Outcome

variable {s t u : Vfs (D × List MoveCall)} {ret : Bool}

/-- Behind the locks both directories are released. -/
theorem move_between_run (hcan : d.logged.canMove op t.driver = true)
    (hmove : moveLocked d.logged mem op on np nn t = .ok (ret, u)) :
    moveBetween d.logged mem op on np nn t = (do
      unrefFsNode d.logged.toDriver op
      unrefFsNode d.logged.toDriver np
      return ret : VfsCall (D × List MoveCall) Bool) u := by
  unfold moveBetween
  have hfirst : (do
      if ← hasMove d.logged op then moveLocked d.logged mem op on np nn
      else return false : VfsCall (D × List MoveCall) Bool) t = .ok (ret, u) := by
    have hhas : hasMove d.logged op t = .ok (true, t) := by
      change Except.ok (d.logged.canMove op t.driver, t) = _
      rw [hcan]
    rw [run_bind_of_ok hhas]
    exact hmove
  exact run_bind_of_ok hfirst

theorem move_between_stops {halt : Halt} (hcan : d.logged.canMove op t.driver = true)
    (hmove : moveLocked d.logged mem op on np nn t = .error halt) :
    moveBetween d.logged mem op on np nn t = .error halt := by
  unfold moveBetween
  refine run_bind_of_error ?_
  have hhas : hasMove d.logged op t = .ok (true, t) := by
    change Except.ok (d.logged.canMove op t.driver, t) = _
    rw [hcan]
  rw [run_bind_of_ok hhas]
  exact hmove

/-- The release of both directories where nothing but the driver's state has changed. -/
theorem release_both (h : Reached held s t op np) {x : D × List MoveCall} :
    ∃ s', (do
      unrefFsNode d.logged.toDriver op
      unrefFsNode d.logged.toDriver np
      return false : VfsCall (D × List MoveCall) Bool) { t with driver := x } = .ok (false, s') ∧
      s'.driver.2 = x.2 ∧ SameTree s s' := by
  have hcounted : Counted { t with driver := x } (plus op (plus np held)) := by
    rw [plus_comm]
    exact h.counted.driver x
  obtain ⟨_, s₁, hrun₁, hs₁, hquiet₁⟩ := unref_fs_node_yields d.logged.toDriver hcounted
  obtain ⟨_, s₂, hrun₂, hs₂, hquiet₂⟩ := unref_fs_node_yields d.logged.toDriver hs₁
  have hstable₁ := stable_unref_fs_node (logged_silent d) op _ _ _ hrun₁
  have hstable₂ := stable_unref_fs_node (logged_silent d) np _ _ _ hrun₂
  have hstable := trans_of (Stable Prod.snd) hstable₁ hstable₂
  have hnodes : Stable (fun _ => ()) s s₂ := by
    refine trans_of (Stable fun _ => ()) ?_ (?_ : Stable (fun _ => ()) { t with driver := x } s₂)
    · exact ⟨h.stable.next, h.stable.node, rfl⟩
    · exact ⟨hstable.next, hstable.node, rfl⟩
  have hquiet : Quiet s s₂ := by
    refine (h.quiet.trans ?_).trans (hquiet₁.trans hquiet₂)
    exact ⟨fun _ _ _ => Iff.rfl, rfl, rfl⟩
  refine ⟨s₂, ?_, hstable.driver, ?_⟩
  · rw [run_bind_of_ok hrun₁, run_bind_of_ok hrun₂]
    rfl
  · exact Returned.same_tree ⟨hnodes, h.start, hs₂, h.settled, hquiet.settled h.settled,
      hquiet.handle, hquiet.nextHandle⟩

/-- A call that answers `false` after that has done nothing, if the driver was asked rightly. -/
theorem transaction_of_release (h : Reached held s t op np) {x : D × List MoveCall}
    {moved : Option NodeId} {outcome : Except Halt (Bool × Vfs (D × List MoveCall))}
    (hrun : outcome = (do
      unrefFsNode d.logged.toDriver op
      unrefFsNode d.logged.toDriver np
      return false : VfsCall (D × List MoveCall) Bool) { t with driver := x })
    (hlog : x.2 = t.driver.2 ∨ x.2 =
      { source := .node op, oldName := on, newParent := np, newName := nn } :: t.driver.2) :
    Transaction held op on np nn moved s outcome := by
  obtain ⟨s', hrelease, hdriver, hsame⟩ := release_both (d := d) h (x := x)
  refine ⟨false, s', hrun.trans hrelease, ?_, fun _ => hsame, fun hno => by cases hno⟩
  rw [hdriver, ← h.stable.driver]
  exact hlog

end Outcome

section Cases

variable {s t : Vfs (D × List MoveCall)} {c : NodeId} {moved : Option NodeId}

/-- The blocks that the locks find. -/
theorem Reached.blocks (h : Reached held s t op np) :
    ∃ od pd, t.node op = some od ∧ t.node np = some pd ∧ od.lock = false ∧ pd.lock = false := by
  have hnpheld : 0 < plus np (plus op held) np := by simp
  have hopheld : 0 < plus np (plus op held) op := by simp [plus_of_ne h.ne]
  obtain ⟨od, hop, holive⟩ := h.counted.holds op hopheld
  obtain ⟨pd, hnp, hplive⟩ := h.counted.holds np hnpheld
  exact ⟨od, pd, hop, hnp, (h.counted.exact op od hop holive).1,
    (h.counted.exact np pd hnp hplive).1⟩

theorem child_of_eq {n : NodeId} {nd : FsNode} (hn : t.node n = some nd) (name : Name) :
    t.childOf n name = nd.find name := by
  rw [Vfs.childOf, hn]
  rfl

/-- The node that is bound in a directory is a younger one. -/
theorem Reached.between (h : Reached held s t op np) (hchild : t.childOf op on = some c)
    (hself : c ≠ np) : ∃ od pd cd, Between t op np c od pd cd on := by
  obtain ⟨od, pd, hop, hnp, holock, hplock⟩ := h.blocks
  have hfind : od.find on = some c := (child_of_eq hop on).symm.trans hchild
  obtain ⟨cd, hc, hlive, hparent, -⟩ := h.counted.find_iff hop |>.mp hfind
  have hroot : c ≠ fsRoot := fun heq => by
    obtain ⟨rd, hrd, -, hnone⟩ := h.counted.root
    obtain rfl := Option.some.inj (hrd.symm.trans (heq ▸ hc))
    rw [hnone] at hparent
    cases hparent
  obtain ⟨p, -, hp, hlt, -⟩ := h.counted.bound c cd hc hlive hroot
  obtain rfl := Option.some.inj (hparent.symm.trans hp)
  exact ⟨od, pd, cd, hop, hnp, hc, h.ne, Nat.ne_of_gt hlt, hself, holock, hplock,
    (h.counted.exact c cd hc hlive).1, hfind⟩

/-- A node that has a child, and is held by the walk besides, has two references at least. -/
theorem Reached.two_refs (h : Reached held s t op np) {n m : NodeId} {nd : FsNode}
    (hn : t.node n = some nd) (hheld : n = op ∨ n = np) {name : Name}
    (hfind : nd.find name = some m) : 2 ≤ nd.refs := by
  obtain ⟨md, hm, hlive, hparent, -⟩ := h.counted.find_iff hn |>.mp hfind
  have hcount : t.childCount n ≠ 0 := fun hzero =>
    Nat.count_iff_forall_not.mp hzero m (h.counted.old m md hm) ⟨md, hm, hlive, hparent⟩
  have hlive : 0 < plus np (plus op held) n := by
    rcases hheld with rfl | rfl
    · simp [plus_of_ne h.ne]
    · simp
  obtain ⟨nd', hn', hlive'⟩ := h.counted.holds n hlive
  obtain rfl := Option.some.inj (hn.symm.trans hn')
  obtain ⟨-, hexact⟩ := h.counted.exact n nd hn hlive'
  have hrefs : (0 : Int) < t.childCount n := Int.ofNat_lt.mpr (Nat.pos_of_ne_zero hcount)
  omega

/-- A call that comes back had done its work and has released both directories. -/
theorem release_of_run {ret ret' : Bool} {u s' : Vfs (D × List MoveCall)}
    (hcan : d.logged.canMove op t.driver = true)
    (hmove : moveLocked d.logged mem op on np nn t = .ok (ret, u))
    (hrun : moveBetween d.logged mem op on np nn t = .ok (ret', s')) :
    ret' = ret ∧ ∃ u', unrefFsNode d.logged.toDriver op u = .ok ((), u') ∧
      unrefFsNode d.logged.toDriver np u' = .ok ((), s') := by
  rw [move_between_run hcan hmove] at hrun
  obtain ⟨_, u', hop, hrun⟩ := run_bind_eq_ok hrun
  obtain ⟨_, s'', hnp, hrun⟩ := run_bind_eq_ok hrun
  cases hrun
  exact ⟨rfl, u', hop, hnp⟩

/-- The driver has got the `data` of a node as if it were the node. -/
theorem data_breaks (h : Reached held s t op np) (hcan : d.logged.canMove op t.driver = true)
    (hchild : t.childOf op on = none) :
    ¬ Transaction held op on np nn moved s (moveBetween d.logged mem op on np nn t) := by
  rintro ⟨ret, s', hrun, hlog, -, -⟩
  obtain ⟨od, pd, hop, hnp, holock, hplock⟩ := h.blocks
  have hmove : moveLocked d.logged mem op on np nn t = _ :=
    move_locked_data hop hnp h.ne holock hplock ((child_of_eq hop on).symm.trans hchild) rfl
  obtain ⟨-, u', hunref, hunref'⟩ := release_of_run hcan hmove hrun
  have hkept := stable_unref_fs_node (logged_silent d) op _ _ _ hunref
  have hkept' := stable_unref_fs_node (logged_silent d) np _ _ _ hunref'
  have hdata : s'.driver.2 =
      { source := .data op, oldName := on, newParent := np, newName := nn } :: s.driver.2 := by
    rw [hkept'.driver, hkept.driver, ← h.stable.driver]
  rw [hdata] at hlog
  rcases hlog with hsame | hnode
  · exact List.cons_ne_self _ _ hsame
  · cases hnode

/-- A node in the state with three blocks written. -/
theorem put_three_cases (u : Vfs (D × List MoveCall)) (op np c m : NodeId) (od pd cd : FsNode) :
    m = c ∧ (u.putThree op np c od pd cd).node m = some cd ∨
      m ≠ c ∧ (m = np ∧ (u.putThree op np c od pd cd).node m = some pd ∨
        m ≠ np ∧ (m = op ∧ (u.putThree op np c od pd cd).node m = some od ∨
          (u.putThree op np c od pd cd).node m = u.node m)) := by
  by_cases hc : m = c
  · exact .inl ⟨hc, hc ▸ put_three_c⟩
  refine .inr ⟨hc, ?_⟩
  rw [Vfs.putThree, Vfs.put_node_of_ne _ hc]
  by_cases hp : m = np
  · exact .inl ⟨hp, hp ▸ Vfs.put_node_self ..⟩
  refine .inr ⟨hp, ?_⟩
  rw [Vfs.put_node_of_ne _ hp]
  by_cases ho : m = op
  · exact .inl ⟨ho, ho ▸ Vfs.put_node_self ..⟩
  · exact .inr (Vfs.put_node_of_ne _ ho _)

/-- Where both directories have been released, the first had another reference, and so had the
second, whose table is not empty. -/
theorem release_three {u u' s' : Vfs (D × List MoveCall)} {od pd cd : FsNode} (hne : op ≠ np)
    (hco : c ≠ op) (hcp : c ≠ np) (holock : od.lock = false) (hplock : pd.lock = false)
    (horefs : od.refs ≠ 1) (hfull : pd.refs ≠ 1 ∨ pd.entries ≠ [])
    (hop : unrefFsNode d.logged.toDriver op (u.putThree op np c od pd cd) = .ok ((), u'))
    (hnp : unrefFsNode d.logged.toDriver np u' = .ok ((), s')) :
    pd.refs ≠ 1 ∧ s' = u.putThree op np c { od with refs := od.refs - 1 }
      { pd with refs := pd.refs - 1 } cd := by
  rw [unref_run _ (put_three_op hne hco) holock horefs, put_three_put_op hne hco] at hop
  cases hop
  have hnode : (u.putThree op np c { od with refs := od.refs - 1 } pd cd).node np = some pd :=
    put_three_np hcp
  have hprefs : pd.refs ≠ 1 := fun hone =>
    unref_full_stops _ hnode hplock hone (hfull.resolve_left fun hmore => hmore hone) hnp
  rw [unref_run _ hnode hplock hprefs, put_three_put_np hcp] at hnp
  cases hnp
  exact ⟨hprefs, rfl⟩

/-- The new name was bound already, and is not bound any more. -/
theorem refused_breaks (h : Reached held s t op np) {od pd cd : FsNode} {b : NodeId}
    (hbetween : Between t op np c od pd cd on) (hcan : d.logged.canMove op t.driver = true)
    {x : D × List MoveCall} (hbound : pd.find nn = some b)
    (hmove : moveLocked d.logged mem op on np nn t = .ok (false,
      ({ t with driver := x } : Vfs (D × List MoveCall)).putThree op np c od (pd.without nn) cd)) :
    ¬ Transaction held op on np nn moved s (moveBetween d.logged mem op on np nn t) := by
  rintro ⟨ret, s', hrun, -, hsame, -⟩
  obtain ⟨hret, u', hunref, hunref'⟩ := release_of_run hcan hmove hrun
  have horefs := h.two_refs hbetween.opNode (.inl rfl) hbetween.find
  have hprefs := h.two_refs hbetween.npNode (.inr rfl) hbound
  have hplock : (pd.without nn).lock = false := hbetween.npLock
  have hmany : od.refs ≠ 1 := by omega
  have hmore : (pd.without nn).refs ≠ 1 := by
    show pd.refs ≠ 1
    omega
  obtain ⟨-, hs'⟩ := release_three h.ne hbetween.neOp hbetween.neNp hbetween.opLock hplock hmany
    (.inl hmore) hunref hunref'
  have hsame := hsame hret
  obtain ⟨bd, hb, -, hparent, hname⟩ := h.counted.find_iff hbetween.npNode |>.mp hbound
  -- the node that was bound is in memory before and after, a child of the new directory
  have hafter : ∃ bd', s'.node b = some bd' ∧ bd'.parent = some np ∧ bd'.name = nn := by
    rw [hs']
    rcases put_three_cases { t with driver := x } op np c b { od with refs := od.refs - 1 }
      { pd.without nn with refs := (pd.without nn).refs - 1 } cd with
      ⟨rfl, hnode⟩ | ⟨-, ⟨rfl, hnode⟩ | ⟨-, ⟨rfl, hnode⟩ | hnode⟩⟩
    · obtain rfl := Option.some.inj (hb.symm.trans hbetween.cNode)
      exact ⟨bd, hnode, hparent, hname⟩
    · obtain rfl := Option.some.inj (hb.symm.trans hbetween.npNode)
      exact ⟨_, hnode, hparent, hname⟩
    · obtain rfl := Option.some.inj (hb.symm.trans hbetween.opNode)
      exact ⟨_, hnode, hparent, hname⟩
    · exact ⟨bd, hnode.trans hb, hparent, hname⟩
  obtain ⟨bd', hb', hparent', hname'⟩ := hafter
  have hnp' : s'.node np = some { pd.without nn with refs := (pd.without nn).refs - 1 } := by
    rw [hs']
    exact put_three_np hbetween.neNp
  rcases hsame b with ⟨-, hnone⟩ | ⟨bs, bs', hbs, hbs', -, hbname, hbparent, -⟩
  · rw [hnone] at hb'
    cases hb'
  obtain rfl := Option.some.inj (hb'.symm.trans hbs')
  rcases hsame np with ⟨-, hnone⟩ | ⟨ns, ns', hns, hns', -, -, -, hfind⟩
  · rw [hnone] at hnp'
    cases hnp'
  obtain rfl := Option.some.inj (hnp'.symm.trans hns')
  have hthere : ns.find nn = some b := h.start.find_iff hns |>.mpr
    ⟨bs, hbs, h.settled.nodes b bs hbs, hbparent ▸ hparent', hbname ▸ hname'⟩
  have hgone : (pd.without nn).find nn = none := by
    rw [FsNode.find, List.lookup_eq_none_iff]
    intro e he
    have hne := List.of_mem_filter (show e ∈ pd.entries.filter fun e => e.1 != nn from he)
    rw [bne_iff_ne] at hne
    exact bne_iff_ne.mpr (Ne.symm hne)
  have heq : (pd.without nn).find nn = ns.find nn := hfind nn
  rw [hgone, hthere] at heq
  cases heq

/-- Two blocks of a node that agree on who is alive and on the parent. -/
theorem child_iff_of_block {u v : Vfs (D × List MoveCall)} {p m : NodeId} {nd nd' : FsNode}
    (hnode : u.node m = some nd) (hnode' : v.node m = some nd') (hlive : 0 < nd.refs ↔ 0 < nd'.refs)
    (hparent : nd.parent = nd'.parent) : u.Child p m ↔ v.Child p m := by
  simp [Vfs.Child, hnode, hnode', hlive, hparent]

/-- The old directory has lost a child, but no reference. -/
theorem agreed_breaks (h : Reached held s t op np) {od pd cd : FsNode}
    (hbetween : Between t op np c od pd cd on) (hcan : d.logged.canMove op t.driver = true)
    {x : D × List MoveCall}
    (hmove : moveLocked d.logged mem op on np nn t = .ok (true,
      ({ t with driver := x } : Vfs (D × List MoveCall)).putThree op np c (od.without on)
        (pd.bind nn c) { cd with name := nn, parent := some np })) :
    ¬ Transaction held op on np nn moved s (moveBetween d.logged mem op on np nn t) := by
  rintro ⟨ret, s', hrun, -, -, hdone⟩
  obtain ⟨hret, u', hunref, hunref'⟩ := release_of_run hcan hmove hrun
  have horefs := h.two_refs hbetween.opNode (.inl rfl) hbetween.find
  have holock : (od.without on).lock = false := hbetween.opLock
  have hplock : (pd.bind nn c).lock = false := hbetween.npLock
  have hmore : (od.without on).refs ≠ 1 := by
    show od.refs ≠ 1
    omega
  have hfull : (pd.bind nn c).entries ≠ [] := List.cons_ne_nil _ _
  obtain ⟨hprefs, hs'⟩ := release_three h.ne hbetween.neOp hbetween.neNp holock hplock hmore
    (.inr hfull) hunref hunref'
  obtain ⟨hconsistent, -⟩ := hdone hret
  have hop' : s'.node op = some { od.without on with refs := (od.without on).refs - 1 } := by
    rw [hs']
    exact put_three_op h.ne hbetween.neOp
  have hafter : od.refs - 1 = s'.childCount op + s'.handleCount op + held op +
      if op = fsRoot then 1 else 0 := hconsistent.exact op _ hop'
  obtain ⟨cd₀, hc₀, hclive, hparent, -⟩ := h.counted.find_iff hbetween.opNode |>.mp hbetween.find
  obtain rfl := Option.some.inj (hbetween.cNode.symm.trans hc₀)
  have holive : 0 < od.refs := by omega
  obtain ⟨-, hbefore⟩ := h.counted.exact op od hbetween.opNode holive
  rw [plus_of_ne h.ne, plus_self] at hbefore
  -- both directories are alive after the release
  obtain ⟨pd₀, hpd₀, hplive⟩ := h.counted.holds np (by simp)
  obtain rfl := Option.some.inj (hbetween.npNode.symm.trans hpd₀)
  have hplive' : 0 < pd.refs - 1 ↔ 0 < pd.refs := by
    have hmore : pd.refs ≠ 1 := hprefs
    omega
  have holive' : 0 < od.refs - 1 ↔ 0 < od.refs := by omega
  have hchildren : t.childCount op = s'.childCount op + 1 := by
    have hnext : s'.nextNode = t.nextNode := by rw [hs']; rfl
    have hc' : s'.node c = some { cd with name := nn, parent := some np } := by
      rw [hs']
      exact put_three_c
    rw [Vfs.childCount, Vfs.childCount, hnext]
    refine count_insert (h.counted.old c cd hc₀) ?_ ⟨cd, hc₀, hclive, hparent⟩ fun m hm => ?_
    · rintro ⟨cd', hnode, -, hgone⟩
      rw [hc'] at hnode
      cases hnode
      exact h.ne (Option.some.inj hgone).symm
    · rw [hs']
      rcases put_three_cases { t with driver := x } op np c m
        { od.without on with refs := (od.without on).refs - 1 }
        { pd.bind nn c with refs := (pd.bind nn c).refs - 1 }
        { cd with name := nn, parent := some np } with
        ⟨rfl, -⟩ | ⟨-, ⟨rfl, hnode⟩ | ⟨-, ⟨rfl, hnode⟩ | hnode⟩⟩
      · exact absurd rfl hm
      · exact child_iff_of_block hnode hbetween.npNode hplive' rfl
      · exact child_iff_of_block hnode hbetween.opNode holive' rfl
      · rw [Vfs.Child, Vfs.Child, hnode]
  have hhandles : s'.handleCount op = t.handleCount op := by
    rw [hs']
    rfl
  omega

/-- A call that does not come back is no transaction. -/
theorem not_transaction_of_error {halt : Halt}
    {outcome : Except Halt (Bool × Vfs (D × List MoveCall))} (hrun : outcome = .error halt) :
    ¬ Transaction held op on np nn moved s outcome := by
  rintro ⟨ret, s', hok, -⟩
  rw [hrun] at hok
  cases hok

/-- A directory that binds a name has a table. -/
theorem children_of_find {nd : FsNode} {name : Name} (hfind : nd.find name = some c) :
    ∃ entries, nd.children = some entries := by
  cases hchildren : nd.children with
  | some entries => exact ⟨entries, rfl⟩
  | none =>
      rw [FsNode.find, FsNode.entries, hchildren] at hfind
      cases hfind

/-- Nothing happens without an operation. -/
theorem move_between_cannot (hcan : d.logged.canMove op t.driver = false) :
    moveBetween d.logged mem op on np nn t = (do
      unrefFsNode d.logged.toDriver op
      unrefFsNode d.logged.toDriver np
      return false : VfsCall (D × List MoveCall) Bool) t := by
  unfold moveBetween
  have hno : hasMove d.logged op t = .ok (false, t) := by
    change Except.ok (d.logged.canMove op t.driver, t) = _
    rw [hcan]
  have hfirst : (do
      if ← hasMove d.logged op then moveLocked d.logged mem op on np nn
      else return false : VfsCall (D × List MoveCall) Bool) t = .ok (false, t) := by
    rw [run_bind_of_ok hno]
    rfl
  exact run_bind_of_ok hfirst

/-- Behind the walks: what is refused is a transaction. -/
theorem refused_transaction (h : Reached held s t op np)
    (hrefused : MoveRefused d mem t op on np nn) :
    Transaction held op on np nn moved s (moveBetween d.logged mem op on np nn t) := by
  cases hcan : d.logged.canMove op t.driver with
  | false => exact transaction_of_release (d := d) h (move_between_cannot hcan) (.inl rfl)
  | true =>
      have hhas : d.canMove op t.driver.1 = true := hcan
      obtain ⟨c, hchild, hself, hrest⟩ := hrefused.resolve_left fun hno => by
        rw [hhas] at hno
        cases hno
      obtain ⟨od, pd, cd, hbetween⟩ := h.between hchild hself
      by_cases hmem : mem.strdup = false ∨ mem.item = false
      · exact transaction_of_release (d := d) h
          (move_between_run hcan (move_locked_no_memory hbetween hmem)) (.inl rfl)
      · rw [not_or, Bool.not_eq_false, Bool.not_eq_false] at hmem
        obtain ⟨⟨pd₀, hpd₀, htable⟩, hunbound, hno⟩ :=
          (hrest.resolve_left (by simp [hmem.1])).resolve_left (by simp [hmem.2])
        obtain rfl := Option.some.inj (hbetween.npNode.symm.trans hpd₀)
        obtain ⟨entries, htable⟩ := Option.ne_none_iff_exists'.mp htable
        have hfind : pd.find nn = none := (child_of_eq hpd₀ nn).symm.trans hunbound
        obtain ⟨x, hasked⟩ : ∃ x, d.logged.move { source := .node op, oldName := on
                                                  newParent := np, newName := nn } t.driver =
            (false, x) := ⟨_, Prod.ext hno rfl⟩
        have hlog : x.2 = { source := .node op, oldName := on, newParent := np, newName := nn } ::
            t.driver.2 := (congrArg (fun answer => answer.2.2) hasked).symm
        have hmove := move_locked_refused hbetween ⟨hmem.1, hmem.2, hasked⟩ htable
        -- the name that was not bound is taken out again
        rw [without_of_unbound htable hfind, put_three_same (s := { t with driver := x })
          hbetween.opNode hbetween.npNode hbetween.cNode] at hmove
        exact transaction_of_release (d := d) h (move_between_run hcan hmove) (.inr hlog)

/-- Behind the walks: a transaction has been refused. -/
theorem transaction_refused (h : Reached held s t op np)
    (hdone : Transaction held op on np nn moved s (moveBetween d.logged mem op on np nn t)) :
    MoveRefused d mem t op on np nn := by
  by_contra hrefused
  rw [MoveRefused, not_or, not_exists] at hrefused
  obtain ⟨hcan, hnot⟩ := hrefused
  have hcan : d.logged.canMove op t.driver = true := Bool.of_not_eq_false hcan
  cases hchild : t.childOf op on with
  | none => exact data_breaks h hcan hchild hdone
  | some c =>
      by_cases hself : c = np
      · obtain ⟨od, pd, hop, hnp, holock, hplock⟩ := h.blocks
        have hfind : od.find on = some np := by
          rw [← child_of_eq hop on, hchild, hself]
        exact not_transaction_of_error (move_between_stops hcan
          (move_locked_self hop hnp h.ne holock hplock hfind)) hdone
      · obtain ⟨od, pd, cd, hbetween⟩ := h.between hchild hself
        have hrest := hnot c
        rw [hchild] at hrest
        simp only [true_and, not_and, not_or] at hrest
        obtain ⟨hdup, hitem, hrest⟩ := hrest hself
        have hdup : mem.strdup = true := Bool.of_not_eq_false hdup
        have hitem : mem.item = true := Bool.of_not_eq_false hitem
        obtain ⟨oldEntries, hold⟩ := children_of_find hbetween.find
        cases htable : pd.children with
        | none =>
            exact not_transaction_of_error (move_between_stops hcan
              (move_locked_no_table hbetween hdup hitem htable)) hdone
        | some entries =>
            rcases hasked : d.logged.move { source := .node op, oldName := on, newParent := np
                                            newName := nn } t.driver with ⟨ret, x⟩
            cases ret with
            | true =>
                exact agreed_breaks h hbetween hcan
                  (move_locked_agreed hbetween ⟨hdup, hitem, hasked⟩ hold htable) hdone
            | false =>
                have hno : d.refuses op on np nn t.driver.1 := congrArg Prod.fst hasked
                have hbound : pd.find nn ≠ none := fun hunbound => by
                  have hmade : pd.children ≠ none := by
                    rw [htable]
                    exact Option.some_ne_none entries
                  exact hrest ⟨pd, hbetween.npNode, hmade⟩
                    ((child_of_eq hbetween.npNode nn).trans hunbound) hno
                obtain ⟨b, hbound⟩ := Option.ne_none_iff_exists'.mp hbound
                exact refused_breaks h hbetween hcan hbound
                  (move_locked_refused hbetween ⟨hdup, hitem, hasked⟩ htable) hdone

end Cases

section Main

variable {s s₁ s₂ : Vfs (D × List MoveCall)}

/-- Moving between two different directories of a consistent tree is a transaction exactly where
the file system or the directory has no such operation, or where a node in memory, which is not the
new directory itself, is not moved: because there is no memory left, or because the driver
refuses while the new directory has a table without the new name. -/
theorem fs_move_transaction (d : MoveDriver D) (mem : MoveMemory) (okModes : UInt32)
    {held : NodeId → Nat} {root op np : NodeId} {old new on nn : Name} (hs : Counted s held)
    (hsettled : Settled s) (hroot : root = fsRoot ∨ 0 < held root)
    (hold : fsWalkPathExceptLast d.logged.toDriver root old s = .ok (some (op, on), s₁))
    (hnew : fsWalkPathExceptLast d.logged.toDriver root new s₁ = .ok (some (np, nn), s₂))
    (hne : op ≠ np) :
    Transaction held op on np nn (s₂.childOf op on) s
        (fsMove d.logged mem okModes root old new s) ↔
      okModes &&& fmDmove = 0 ∨ MoveRefused d mem s₂ op on np nn := by
  have hreached := reached_of_walks d hs hsettled hroot hold hnew hne
  by_cases hmode : okModes &&& fmDmove = 0
  · have hrun : fsMove d.logged mem okModes root old new s = .ok (false, s) := by
      unfold fsMove
      rw [run_ite, if_pos hmode]
      rfl
    refine iff_of_true ⟨false, s, hrun, .inl rfl, fun _ => ?_, fun hno => by cases hno⟩ (.inl hmode)
    intro n
    cases hn : s.node n with
    | none => exact .inl ⟨rfl, rfl⟩
    | some nd => exact .inr ⟨nd, nd, rfl, rfl, rfl, rfl, rfl, fun _ => rfl⟩
  · have hrun : fsMove d.logged mem okModes root old new s =
        moveBetween d.logged mem op on np nn s₂ := by
      unfold fsMove
      rw [run_ite, if_neg hmode, run_bind_of_ok hold]
      exact run_bind_of_ok hnew
    rw [hrun, or_iff_right hmode]
    exact ⟨transaction_refused hreached, refused_transaction hreached⟩

end Main

section Runs

/-- A driver whose directories have every name, and which gives one answer to all moves. -/
def MoveDriver.generous (answer : Bool) : MoveDriver Unit where
  toDriver := .generous
  canMove := fun _ _ => true
  move := fun _ _ => (answer, ())

/-- The call comes back, and its answer and the new state pass the test. -/
def endsIn {σ α : Type} (outcome : Except Halt (α × σ)) (test : α → σ → Bool) : Bool :=
  match outcome with
  | .ok (a, s) => test a s
  | .error _ => false

theorem exists_of_ends_in {σ α : Type} {outcome : Except Halt (α × σ)} {test : α → σ → Bool}
    (h : endsIn outcome test = true) : ∃ a s, outcome = .ok (a, s) ∧ test a s = true := by
  match outcome with
  | .ok (a, s) => exact ⟨a, s, rfl, h⟩
  | .error _ => cases h

/-- A file system whose directories can be changed, after `b/c` has been opened. -/
def openedTree (answer : Bool) : Except Halt (Unit × Vfs (Unit × List MoveCall)) :=
  (FsRequest.open [98, slash, 99] fmRead).run (MoveDriver.generous answer).logged.toDriver
    (makeFs ((), []) (fmRead ||| fmDmove) false [])

theorem opened_tree_counted {answer : Bool} {s : Vfs (Unit × List MoveCall)}
    (hrun : openedTree answer = .ok ((), s)) : (Counted s fun _ => 0) ∧ Settled s := by
  have hreach : Reachable (vfsRuns (MoveDriver.generous answer).logged.toDriver
      (makeFs ((), []) (fmRead ||| fmDmove) false [])) s :=
    .step (.init rfl) ⟨.open [98, slash, 99] fmRead, trivial, hrun⟩
  exact (counted_of_reachable hreach).resolve_right fun h => by cases h.1

/-- The two walks of moving `b/c` to `d`. -/
theorem opened_tree_walks (answer : Bool) : ∃ s s₁ s₂, openedTree answer = .ok ((), s) ∧
    fsWalkPathExceptLast (MoveDriver.generous answer).logged.toDriver fsRoot [98, slash, 99] s =
      .ok (some (1, [99]), s₁) ∧
    fsWalkPathExceptLast (MoveDriver.generous answer).logged.toDriver fsRoot [100] s₁ =
      .ok (some (fsRoot, [100]), s₂) ∧
    s₂.childOf 1 [99] = some 2 ∧ s₂.childOf fsRoot [98] = some 1 ∧
    s₂.childOf fsRoot [100] = none := by
  have hruns : endsIn (openedTree answer) (fun _ s =>
      endsIn (fsWalkPathExceptLast (MoveDriver.generous answer).logged.toDriver fsRoot
        [98, slash, 99] s) fun found s₁ => found == some (1, [99]) &&
          endsIn (fsWalkPathExceptLast (MoveDriver.generous answer).logged.toDriver fsRoot [100] s₁)
            fun found s₂ => found == some (fsRoot, [100]) && s₂.childOf 1 [99] == some 2 &&
              s₂.childOf fsRoot [98] == some 1 && s₂.childOf fsRoot [100] == none) = true := by
    cases answer <;> decide +kernel
  obtain ⟨_, s, hrun, hruns⟩ := exists_of_ends_in hruns
  obtain ⟨_, s₁, hold, hruns⟩ := exists_of_ends_in hruns
  rw [Bool.and_eq_true, beq_iff_eq] at hruns
  obtain ⟨rfl, hruns⟩ := hruns
  obtain ⟨_, s₂, hnew, hruns⟩ := exists_of_ends_in hruns
  simp only [Bool.and_eq_true, beq_iff_eq] at hruns
  obtain ⟨⟨⟨rfl, hmoved⟩, hother⟩, hfree⟩ := hruns
  exact ⟨s, s₁, s₂, hrun, hold, hnew, hmoved, hother, hfree⟩

/-- The driver refuses to move `b/c` to `d`, and everything is as before. -/
theorem fs_move_transaction_refused :
    ∃ s s₂, openedTree false = .ok ((), s) ∧ s₂.childOf 1 [99] = some 2 ∧
      MoveRefused (.generous false) ⟨true, true⟩ s₂ 1 [99] fsRoot [100] ∧
      Transaction (fun _ => 0) 1 [99] fsRoot [100] (s₂.childOf 1 [99]) s
        (fsMove (MoveDriver.generous false).logged ⟨true, true⟩ (fmRead ||| fmDmove) fsRoot
          [98, slash, 99] [100] s) := by
  obtain ⟨s, s₁, s₂, hrun, hold, hnew, hmoved, hother, hfree⟩ := opened_tree_walks false
  obtain ⟨hs, hsettled⟩ := opened_tree_counted hrun
  have htable : s₂.hasTable fsRoot := by
    obtain ⟨rd, hrd, hfind⟩ := Option.bind_eq_some_iff.mp hother
    obtain ⟨entries, hentries⟩ := children_of_find hfind
    exact ⟨rd, hrd, hentries ▸ Option.some_ne_none entries⟩
  have hrefused : MoveRefused (.generous false) ⟨true, true⟩ s₂ 1 [99] fsRoot [100] :=
    .inr ⟨2, hmoved, by decide, .inr (.inr ⟨htable, hfree, rfl⟩)⟩
  exact ⟨s, s₂, hrun, hmoved, hrefused, (fs_move_transaction (.generous false) ⟨true, true⟩
    (fmRead ||| fmDmove) hs hsettled (.inl rfl) hold hnew (by decide)).mpr (.inr hrefused)⟩

/-- The driver agrees to move `b/c` to `d`: the directory `b` keeps the reference of the node that
has left it. -/
theorem fs_move_keeps_reference :
    ∃ s s₁ s₂ s', openedTree true = .ok ((), s) ∧ (Counted s fun _ => 0) ∧ Settled s ∧
      fsWalkPathExceptLast (MoveDriver.generous true).logged.toDriver fsRoot [98, slash, 99] s =
        .ok (some (1, [99]), s₁) ∧
      fsWalkPathExceptLast (MoveDriver.generous true).logged.toDriver fsRoot [100] s₁ =
        .ok (some (fsRoot, [100]), s₂) ∧
      fsMove (MoveDriver.generous true).logged ⟨true, true⟩ (fmRead ||| fmDmove) fsRoot
        [98, slash, 99] [100] s = .ok (true, s') ∧
      (s'.node 1).map (fun nd => nd.refs) = some 1 ∧ s'.childCount 1 = 0 ∧ s'.handleCount 1 = 0 ∧
      ¬ Transaction (fun _ => 0) 1 [99] fsRoot [100] (s₂.childOf 1 [99]) s
        (fsMove (MoveDriver.generous true).logged ⟨true, true⟩ (fmRead ||| fmDmove) fsRoot
          [98, slash, 99] [100] s) := by
  have hmoves : endsIn (openedTree true) (fun _ s =>
      endsIn (fsMove (MoveDriver.generous true).logged ⟨true, true⟩ (fmRead ||| fmDmove) fsRoot
        [98, slash, 99] [100] s) fun ret s' => ret && (s'.node 1).map (fun nd => nd.refs) == some 1
          && s'.childCount 1 == 0 && s'.handleCount 1 == 0) = true := by
    decide +kernel
  obtain ⟨s, s₁, s₂, hrun, hold, hnew, -⟩ := opened_tree_walks true
  obtain ⟨hs, hsettled⟩ := opened_tree_counted hrun
  obtain ⟨_, s₀, hrun₀, hmoves⟩ := exists_of_ends_in hmoves
  rw [hrun] at hrun₀
  cases hrun₀
  obtain ⟨ret, s', hmove, htest⟩ := exists_of_ends_in hmoves
  simp only [Bool.and_eq_true, beq_iff_eq] at htest
  obtain ⟨⟨⟨rfl, hrefs⟩, hchildren⟩, hhandles⟩ := htest
  refine ⟨s, s₁, s₂, s', hrun, hs, hsettled, hold, hnew, hmove, hrefs, hchildren, hhandles, ?_⟩
  rintro ⟨ret, s'', hmove', -, -, hdone⟩
  rw [hmove] at hmove'
  cases hmove'
  obtain ⟨nd, hn, hone⟩ := Option.map_eq_some_iff.mp hrefs
  have hexact := (hdone rfl).1.exact 1 nd hn
  rw [hone, hchildren, hhandles] at hexact
  cases hexact

end Runs

end Kogata.Kernel
