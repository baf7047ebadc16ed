import Kogata.Kernel.VfsExact
import Kogata.Lib.Ring

/-!
# The two path walkers

`fs_walk_path` and `fs_walk_path_except_last` of `kernel/user/vfs.c` on the characters of a path,
with their buffers of `DIR_MAX` bytes. A store or a read that leaves its buffer is wild. The loops
do what the walks over the items of the path do (`walk_loop_eq`, `last_loop_simulates`), and where
the second walker isolates a last item, the first one goes through it (`path_walkers_agree`).
-/

namespace Kogata.Kernel.PathWalk

open Lib Lib.Effect

/-- An array of `DIR_MAX` characters. -/
abbrev PathBuf := Vector UInt8 128

/-- `strchr`, as a distance. -/
def strchr (str : Name) (c : UInt8) : Option Nat := str.idxOf? c

/-- `strncpy`. -/
def strncpy (dest : PathBuf) (src : Name) (n : Nat) : Except Halt PathBuf := do
  let x := if n < src.length then n else src.length
  let dest ← inside (Ring.store dest 0 (src.take x))
  if n > x then inside (Ring.store dest x (List.replicate (n - x) 0)) else pure dest

/-- `strcpy`. -/
def strcpy (dest : PathBuf) (src : Name) : Except Halt PathBuf :=
  inside (Ring.store dest 0 (src ++ [0]))

/-- `dest[i] = c`. -/
def putChar (dest : PathBuf) (i : Nat) (c : UInt8) : Except Halt PathBuf :=
  inside (Ring.store dest i [c])

/-- The string in an array, for a function that reads it up to its final `0`. -/
def stringIn (buf : PathBuf) : Except Halt Name :=
  if 0 ∈ buf.toList then .ok (buf.toList.takeWhile fun c => c != 0) else .error .wild

/-- The first `if` of both walkers. -/
def skipSlash (path : Name) : Name :=
  if path.head? = some slash then path.tail else path

variable {D : Type} (d : Driver D)

/-- `fs_walk_one` on the string in an array. -/
def fsWalkOneIn (n : NodeId) (buf : PathBuf) : VfsCall D (Option NodeId) := do
  fsWalkOne d n (← stringIn buf)

/-- The loop of `fs_walk_path`; `nameBuf` is what is left of the array of the last turn. -/
def walkLoop (n : NodeId) (path : Name) (nameBuf : PathBuf) : VfsCall D (Option NodeId) :=
  if path = [] then return some n
  else if path.head? = some slash then do
    unrefFsNode d n
    return none
  else
    match strchr path slash with
    | none => do
        let n2 ← fsWalkOne d n path
        unrefFsNode d n
        return n2
    | some nlen =>
        if nlen ≥ dirMax - 1 then do
          unrefFsNode d n
          return none
        else do
          let nameBuf ← strncpy nameBuf path nlen
          let nameBuf ← putChar nameBuf nlen 0
          let n2 ← fsWalkOneIn d n nameBuf
          unrefFsNode d n
          match n2 with
          | none => return none
          | some n2 => walkLoop n2 (path.drop (nlen + 1)) nameBuf
termination_by path.length
decreasing_by
  have hpos := List.length_pos_of_ne_nil ‹path ≠ []›
  rw [List.length_drop]
  omega

/-- `fs_walk_path`. -/
def fsWalkPath (base : NodeId) (path : Name) (nameBuf : PathBuf) : VfsCall D (Option NodeId) := do
  refFsNode base
  walkLoop d base (skipSlash path) nameBuf

/-- The loop of `fs_walk_path_except_last`. -/
def lastLoop (n : NodeId) (path : Name) (lastFileBuf : PathBuf) :
    VfsCall D (Option NodeId × PathBuf) :=
  if path = [] then return (some n, lastFileBuf)
  else if path.head? = some slash then do
    unrefFsNode d n
    return (none, lastFileBuf)
  else
    match strchr path slash with
    | none =>
        if path.length ≥ dirMax - 1 then do
          unrefFsNode d n
          return (none, lastFileBuf)
        else do
          let lastFileBuf ← strcpy lastFileBuf path
          return (some n, lastFileBuf)
    | some nlen =>
        if nlen ≥ dirMax - 1 then do
          unrefFsNode d n
          return (none, lastFileBuf)
        else do
          let lastFileBuf ← strncpy lastFileBuf path nlen
          let lastFileBuf ← putChar lastFileBuf nlen 0
          if path.drop (nlen + 1) = [] then return (some n, lastFileBuf)
          else
            let n2 ← fsWalkOneIn d n lastFileBuf
            unrefFsNode d n
            match n2 with
            | none => return (none, lastFileBuf)
            | some n2 => lastLoop n2 (path.drop (nlen + 1)) lastFileBuf
termination_by path.length
decreasing_by
  have hpos := List.length_pos_of_ne_nil ‹path ≠ []›
  rw [List.length_drop]
  omega

/-- `fs_walk_path_except_last`: the node, and what is in the buffer of the caller. -/
def fsWalkPathExceptLast (base : NodeId) (path : Name) (lastFileBuf : PathBuf) :
    VfsCall D (Option NodeId × PathBuf) := do
  if skipSlash path = [] then return (none, lastFileBuf)
  else
    refFsNode base
    lastLoop d base (skipSlash path) lastFileBuf

/-- The array holds the name and its final `0`. -/
def Holds (buf : PathBuf) (name : Name) : Prop :=
  Ring.slice buf 0 (name.length + 1) = name ++ [0]

section Strings

variable {buf : PathBuf} {name path rest : Name} {n : Nat}

theorem strchr_none (h : slash ∉ path) : strchr path slash = none :=
  List.idxOf?_eq_none_iff.mpr h

theorem strchr_item (h : slash ∉ name) :
    strchr (name ++ slash :: rest) slash = some name.length := by
  induction name with
  | nil => rfl
  | cons c name ih =>
      obtain ⟨hc, hname⟩ := not_or.mp (mt List.mem_cons.mpr h)
      show (c :: (name ++ slash :: rest)).idxOf? slash = _
      rw [List.idxOf?_cons, if_neg (by simpa using Ne.symm hc)]
      exact congrArg (Option.map (· + 1)) (ih hname)

/-- The front of a path whose first item has a slash behind it. -/
theorem item_front (rest : Name) (hitem : name ≠ []) (hslash : slash ∉ name) :
    (name ++ slash :: rest).head? ≠ some slash ∧
      (name ++ slash :: rest).drop (name.length + 1) = rest := by
  constructor
  · rw [List.head?_append_of_ne_nil _ hitem]
    exact fun h => hslash (List.mem_of_mem_head? h)
  · rw [List.drop_append]
    simp

/-- A block and a character behind it. -/
theorem holds_overwrite (h : name.length < 128) :
    Holds (Ring.overwrite (Ring.overwrite buf 0 name) name.length [0]) name := by
  have hblock := Ring.contents_overwrite buf 0 0 name (by decide) (by omega)
  have hnul := Ring.contents_overwrite (Ring.overwrite buf 0 name) 0 name.length [0] (by decide)
    (show 0 + name.length + 1 ≤ 128 by omega)
  simp only [Nat.zero_add, Ring.contents_zero, List.nil_append] at hblock hnul
  rw [hblock] at hnul
  exact (Ring.contents_eq_slice _ (by omega)).symm.trans hnul

theorem strcpy_run (buf : PathBuf) (hpath : path.length < dirMax - 1) :
    ∃ buf', strcpy buf path = .ok buf' ∧ Holds buf' path := by
  change path.length < 127 at hpath
  have hlen : (path ++ [0]).length = path.length + 1 := List.length_append
  refine ⟨Ring.overwrite buf 0 (path ++ [0]), ?_, ?_⟩
  · rw [strcpy, Ring.store_eq buf (by omega), inside_some]
  · have hslice := @Ring.slice_overwrite UInt8 _ 128 buf 0 (path ++ [0]) (by omega)
    rwa [hlen] at hslice

/-- What is read from an array that holds a name is the name. -/
theorem string_in_of_holds (h : Holds buf name) (hlen : name.length < 128)
    (hnul : (0 : UInt8) ∉ name) : stringIn buf = .ok name := by
  have htake : buf.toList.take (name.length + 1) = name ++ [0] := by
    rw [← h]
    refine List.ext_getElem (by simp; omega) fun i hi hi' => ?_
    have hlt : i < 128 := by
      simp only [List.length_take, Vector.length_toList] at hi
      omega
    simp [Ring.slice, getElem!_pos buf i hlt]
  have hsplit : buf.toList = name ++ 0 :: buf.toList.drop (name.length + 1) := by
    conv_lhs => rw [← List.take_append_drop (name.length + 1) buf.toList, htake]
    simp
  have hchars : ∀ c ∈ name, (c != 0) = true := by
    intro c hc
    exact bne_iff_ne.mpr fun hzero => hnul (hzero ▸ hc)
  unfold stringIn
  rw [if_pos (by rw [hsplit]; simp), hsplit, List.takeWhile_append_of_pos hchars]
  simp

/-- A string up to a slash, put at the start of an array with its final `0`. -/
theorem isolate_run (buf : PathBuf) (rest : Name) (hname : name.length < dirMax - 1)
    (hnul : (0 : UInt8) ∉ name) :
    ∃ buf₁ buf₂, strncpy buf (name ++ slash :: rest) name.length = .ok buf₁ ∧
      putChar buf₁ name.length 0 = .ok buf₂ ∧ Holds buf₂ name ∧ stringIn buf₂ = .ok name := by
  change name.length < 127 at hname
  have hholds := @holds_overwrite buf name (by omega)
  refine ⟨Ring.overwrite buf 0 name, Ring.overwrite (Ring.overwrite buf 0 name) name.length [0],
    ?_, ?_, hholds, string_in_of_holds hholds (by omega) hnul⟩
  · have hlt : name.length < (name ++ slash :: rest).length := by
      rw [List.length_append, List.length_cons]
      omega
    simp only [strncpy, if_pos hlt, List.take_left]
    rw [Ring.store_eq buf (by omega), inside_some, ok_bind, if_neg (Nat.lt_irrefl _)]
    rfl
  · rw [putChar, Ring.store_eq _ (show name.length + 1 ≤ 128 by omega), inside_some]

end Strings

section Loops

variable {d} {n : NodeId} {path rest item : Name} {items : List Name} {buf : PathBuf}

/-- A string function that comes back, in a call. -/
theorem lift_ok_bind {α β : Type} (a : α) (next : α → VfsCall D β) :
    ((liftM (Except.ok a : Except Halt α) : VfsCall D α) >>= next) = next a := rfl

/-- A path is empty, or begins with a slash, or is its last item, or has an item and a slash. -/
theorem path_cases (path : Name) : path = [] ∨ (∃ rest, path = slash :: rest) ∨
    (path ≠ [] ∧ slash ∉ path) ∨
    ∃ item rest, path = item ++ slash :: rest ∧ item ≠ [] ∧ slash ∉ item := by
  by_cases hslash : slash ∈ path
  · obtain ⟨item, rest, rfl, hitem⟩ := List.eq_append_cons_of_mem hslash
    by_cases hempty : item = []
    · rw [hempty]
      exact .inr (.inl ⟨rest, rfl⟩)
    · exact .inr (.inr (.inr ⟨item, rest, rfl, hempty, hitem⟩))
  · by_cases hempty : path = []
    · exact .inl hempty
    · exact .inr (.inr (.inl ⟨hempty, hslash⟩))

theorem walk_items_cons (hitems : items ≠ []) : walkItems d n (item :: items) =
    if item = [] then do
      unrefFsNode d n
      return none
    else if item.length ≥ dirMax - 1 then do
      unrefFsNode d n
      return none
    else (do
      let n2 ← fsWalkOne d n item
      unrefFsNode d n
      match n2 with
      | none => return none
      | some n2 => walkItems d n2 items) := by
  cases items with
  | nil => exact absurd rfl hitems
  | cons => rfl

theorem split_on_item (hitem : slash ∉ item) :
    (item ++ slash :: rest).splitOn slash = item :: rest.splitOn slash :=
  List.splitOn_append_cons_self_of_not_mem hitem rest

/-- The end of the path behind a slash. -/
theorem walk_loop_nil : walkLoop d n [] buf = return some n := by
  rw [walkLoop, if_pos rfl]

/-- A second slash. -/
theorem walk_loop_slash : walkLoop d n (slash :: rest) buf = do
    unrefFsNode d n
    return none := by
  rw [walkLoop, if_neg (List.cons_ne_nil _ _), if_pos List.head?_cons]

/-- The last item of a path without a slash behind it. -/
theorem walk_loop_last (hpath : path ≠ []) (hslash : slash ∉ path) :
    walkLoop d n path buf = do
      let n2 ← fsWalkOne d n path
      unrefFsNode d n
      return n2 := by
  have hhead : path.head? ≠ some slash := fun h => hslash (List.mem_of_mem_head? h)
  rw [walkLoop, if_neg hpath, if_neg hhead, strchr_none hslash]

/-- An item with a slash behind it. -/
theorem walk_loop_item (n : NodeId) (rest : Name) (buf : PathBuf) (hitem : item ≠ [])
    (hslash : slash ∉ item) (hnul : (0 : UInt8) ∉ item) :
    ∃ buf', walkLoop d n (item ++ slash :: rest) buf =
      if item.length ≥ dirMax - 1 then do
        unrefFsNode d n
        return none
      else (do
        let n2 ← fsWalkOne d n item
        unrefFsNode d n
        match n2 with
        | none => return none
        | some n2 => walkLoop d n2 rest buf') := by
  obtain ⟨hhead, hdrop⟩ := item_front rest hitem hslash
  rw [walkLoop, if_neg (by simp), if_neg hhead, strchr_item hslash]
  dsimp only
  by_cases hlong : item.length ≥ dirMax - 1
  · exact ⟨buf, by rw [if_pos hlong, if_pos hlong]⟩
  · obtain ⟨buf₁, buf₂, hcopy, hput, -, hread⟩ :=
      isolate_run buf rest (Nat.lt_of_not_le hlong) hnul
    refine ⟨buf₂, ?_⟩
    rw [if_neg hlong, if_neg hlong, hcopy, lift_ok_bind, hput, lift_ok_bind, fsWalkOneIn, hread,
      lift_ok_bind, hdrop]

/-- The loop of `fs_walk_path` walks over the items of the path. -/
theorem walk_loop_eq (hnul : (0 : UInt8) ∉ path) :
    walkLoop d n path buf = walkItems d n (path.splitOn slash) := by
  induction hlen : path.length using Nat.strong_induction_on generalizing path n buf with
  | _ len ih =>
      rcases path_cases path with rfl | ⟨rest, rfl⟩ | ⟨hpath, hslash⟩ |
        ⟨item, rest, rfl, hitem, hslash⟩
      · exact walk_loop_nil
      · have hsplit : (slash :: rest).splitOn slash = [] :: rest.splitOn slash :=
          List.splitOn_append_cons_self_of_not_mem List.not_mem_nil rest
        rw [walk_loop_slash, hsplit, walk_items_cons (List.splitOn_ne_nil _ _), if_pos rfl]
      · rw [walk_loop_last hpath hslash, List.splitOn_eq_singleton hslash, walkItems,
          if_neg hpath]
      · have hnul' := not_or.mp (mt List.mem_append.mpr hnul)
        obtain ⟨buf', hloop⟩ := @walk_loop_item _ d item n rest buf hitem hslash hnul'.1
        have hrest : ∀ m, walkLoop d m rest buf' = walkItems d m (rest.splitOn slash) := by
          intro m
          refine ih rest.length ?_ (fun hmem => hnul'.2 (List.mem_cons_of_mem _ hmem)) rfl
          rw [← hlen, List.length_append, List.length_cons]
          omega
        rw [hloop, split_on_item hslash, walk_items_cons (List.splitOn_ne_nil _ _), if_neg hitem]
        simp only [hrest]

/-- The answer of the items is the node and, if there is one, the name in the buffer. -/
def Shows (result : Option NodeId × PathBuf) (found : Option (NodeId × Name)) : Prop :=
  result.1 = found.map Prod.fst ∧ ∀ e ∈ found, Holds result.2 e.2

theorem shows_none : Shows (none, buf) none :=
  ⟨rfl, fun _ h => by cases h⟩

theorem shows_some (h : Holds buf item) : Shows (some n, buf) (some (n, item)) :=
  ⟨rfl, fun _ he => by cases he; exact h⟩

theorem give_up_simulates : Simulates Shows
    (do unrefFsNode d n; return (none, buf)) (do unrefFsNode d n; return none) :=
  simulates_bind _ fun _ => simulates_pure shows_none

theorem walk_items_except_last_cons (hitems : items ≠ []) :
    walkItemsExceptLast d n (item :: items) =
      if item = [] then do
        unrefFsNode d n
        return none
      else if item.length ≥ dirMax - 1 then do
        unrefFsNode d n
        return none
      else if items = [[]] then return some (n, item)
      else (do
        let n2 ← fsWalkOne d n item
        unrefFsNode d n
        match n2 with
        | none => return none
        | some n2 => walkItemsExceptLast d n2 items) := by
  cases items with
  | nil => exact absurd rfl hitems
  | cons => rfl

theorem last_loop_slash : lastLoop d n (slash :: rest) buf = do
    unrefFsNode d n
    return (none, buf) := by
  rw [lastLoop, if_neg (List.cons_ne_nil _ _), if_pos List.head?_cons]

/-- The last item is copied together with its final `0`. -/
theorem last_loop_last (hpath : path ≠ []) (hslash : slash ∉ path) :
    Simulates Shows (lastLoop d n path buf) (walkItemsExceptLast d n [path]) := by
  have hhead : path.head? ≠ some slash := fun h => hslash (List.mem_of_mem_head? h)
  rw [lastLoop, if_neg hpath, if_neg hhead, strchr_none hslash, walkItemsExceptLast]
  dsimp only
  by_cases hlong : path.length ≥ dirMax - 1
  · rw [if_pos hlong, if_pos hlong]
    exact give_up_simulates
  · obtain ⟨buf', hcopy, hholds⟩ := strcpy_run buf (Nat.lt_of_not_le hlong)
    rw [if_neg hlong, if_neg hlong, hcopy, lift_ok_bind]
    exact simulates_pure (shows_some hholds)

/-- An item with a slash behind it. -/
theorem last_loop_item (hitem : item ≠ []) (hslash : slash ∉ item) (hnul : (0 : UInt8) ∉ item)
    (hrest : rest ≠ [] → ∀ m buf, Simulates Shows (lastLoop d m rest buf)
      (walkItemsExceptLast d m (rest.splitOn slash))) :
    Simulates Shows (lastLoop d n (item ++ slash :: rest) buf)
      (walkItemsExceptLast d n (item :: rest.splitOn slash)) := by
  obtain ⟨hhead, hdrop⟩ := item_front rest hitem hslash
  rw [lastLoop, if_neg (by simp), if_neg hhead, strchr_item hslash,
    walk_items_except_last_cons (List.splitOn_ne_nil _ _), if_neg hitem]
  dsimp only
  by_cases hlong : item.length ≥ dirMax - 1
  · rw [if_pos hlong, if_pos hlong]
    exact give_up_simulates
  · obtain ⟨buf₁, buf₂, hcopy, hput, hholds, hread⟩ :=
      isolate_run buf rest (Nat.lt_of_not_le hlong) hnul
    rw [if_neg hlong, if_neg hlong, hcopy, lift_ok_bind, hput, lift_ok_bind, hdrop]
    by_cases hend : rest = []
    · -- A trailing slash: the item is the last one.
      rw [if_pos hend, hend, if_pos (List.splitOn_nil slash)]
      exact simulates_pure (shows_some hholds)
    · have hmore : rest.splitOn slash ≠ [[]] := by
        intro hsplit
        have hjoin : [slash].intercalate (rest.splitOn slash) = rest :=
          List.intercalate_splitOn slash
        rw [hsplit] at hjoin
        exact hend hjoin.symm
      rw [if_neg hend, if_neg hmore, fsWalkOneIn, hread, lift_ok_bind]
      refine simulates_bind _ fun n2 => simulates_bind _ fun _ => ?_
      cases n2 with
      | none => exact simulates_pure shows_none
      | some n2 => exact hrest hend n2 buf₂

/-- The loop of `fs_walk_path_except_last` walks over the items of the path, and leaves the last one
in the buffer. -/
theorem last_loop_simulates (hpath : path ≠ []) (hnul : (0 : UInt8) ∉ path) :
    Simulates Shows (lastLoop d n path buf) (walkItemsExceptLast d n (path.splitOn slash)) := by
  induction hlen : path.length using Nat.strong_induction_on generalizing path n buf with
  | _ len ih =>
      rcases path_cases path with rfl | ⟨rest, rfl⟩ | ⟨-, hslash⟩ |
        ⟨item, rest, rfl, hitem, hslash⟩
      · exact absurd rfl hpath
      · have hsplit : (slash :: rest).splitOn slash = [] :: rest.splitOn slash :=
          List.splitOn_append_cons_self_of_not_mem List.not_mem_nil rest
        rw [last_loop_slash, hsplit, walk_items_except_last_cons (List.splitOn_ne_nil _ _),
          if_pos rfl]
        exact give_up_simulates
      · rw [List.splitOn_eq_singleton hslash]
        exact last_loop_last hpath hslash
      · have hnul' := not_or.mp (mt List.mem_append.mpr hnul)
        rw [split_on_item hslash]
        refine last_loop_item hitem hslash hnul'.1 fun hrest m buf => ?_
        refine ih rest.length ?_ hrest (fun hmem => hnul'.2 (List.mem_cons_of_mem _ hmem)) rfl
        rw [← hlen, List.length_append, List.length_cons]
        omega

end Loops

section Items

variable {d} {s s' : Vfs D} {held : NodeId → Nat} {n base : NodeId} {items : List Name}

/-- What can be the last item of a path. -/
structure IsItem (name : Name) : Prop where
  nonempty : name ≠ []
  short : name.length < dirMax - 1

/-- Where the second walk stops in front of a last item, the first one goes through it. -/
theorem walk_items_of_last {m : NodeId} {name : Name} (hitems : items ≠ []) (hpath : items ≠ [[]])
    (hrun : walkItemsExceptLast d n items s = .ok (some (m, name), s')) :
    name ∈ items ∧ IsItem name ∧ walkItems d n items s = (do
      let n2 ← fsWalkOne d m name
      unrefFsNode d m
      return n2 : VfsCall D (Option NodeId)) s' := by
  fun_induction walkItemsExceptLast d n items generalizing s with
  | case1 => exact absurd rfl hitems
  | case2 n last hlong =>
      obtain ⟨_, _, -, hpure⟩ := run_bind_eq_ok hrun
      cases hpure
  | case3 n last hshort =>
      cases hrun
      have hname : name ≠ [] := fun hempty => hpath (by rw [hempty])
      refine ⟨List.mem_cons_self, ⟨hname, Nat.lt_of_not_le hshort⟩, ?_⟩
      rw [walkItems, if_neg hname]
  | case4 n rest hrest =>
      obtain ⟨_, _, -, hpure⟩ := run_bind_eq_ok hrun
      cases hpure
  | case5 n item rest hrest hitem hlong =>
      obtain ⟨_, _, -, hpure⟩ := run_bind_eq_ok hrun
      cases hpure
  | case6 n item hitem hshort hrest =>
      -- A trailing slash: the first walk goes on with an item that is empty, and ends.
      cases hrun
      refine ⟨List.mem_cons_self, ⟨hitem, Nat.lt_of_not_le hshort⟩, ?_⟩
      rw [walk_items_cons (List.cons_ne_nil _ _), if_neg hitem, if_neg hshort]
      refine congrFun (congrArg _ (funext fun n2 => congrArg _ (funext fun _ => ?_))) s'
      cases n2 with
      | none => rfl
      | some n2 => rfl
  | case7 n item rest hrest hitem hshort hmore ih =>
      obtain ⟨n2, s₁, hone, hrun⟩ := run_bind_eq_ok hrun
      obtain ⟨_, s₂, hunref, hrun⟩ := run_bind_eq_ok hrun
      cases n2 with
      | none => cases hrun
      | some n2 =>
          obtain ⟨hmem, hname, hwalk⟩ := ih n2 hrest hmore hrun
          refine ⟨List.mem_cons_of_mem _ hmem, hname, ?_⟩
          rw [walk_items_cons hrest, if_neg hitem, if_neg hshort, run_bind_of_ok hone,
            run_bind_of_ok hunref, ← hwalk]

/-- Where an item in front of the last one is empty, the first walk fails. -/
theorem walk_items_rejects (hempty : [] ∈ items.dropLast) (hs : Counted s (plus n held)) :
    Yields (walkItems d n items) s fun found _ => found = none := by
  fun_induction walkItems d n items generalizing s with
  | case1 => cases hempty
  | case2 => cases hempty
  | case3 => cases hempty
  | case4 => exact (unref_fs_node_yields d hs).bind fun _ _ _ => yields_pure rfl
  | case5 => exact (unref_fs_node_yields d hs).bind fun _ _ _ => yields_pure rfl
  | case6 n item rest hrest hitem hshort ih =>
      refine walk_item_yields d item hs fun found s₁ hs₁ hquiet => ?_
      cases found with
      | none => exact yields_pure rfl
      | some n2 =>
          rw [List.dropLast_cons_of_ne_nil hrest] at hempty
          exact ih n2 ((List.mem_cons.mp hempty).resolve_left (Ne.symm hitem)) hs₁

/-- So does the second one. -/
theorem walk_items_except_last_rejects (hempty : [] ∈ items.dropLast)
    (hs : Counted s (plus n held)) :
    Yields (walkItemsExceptLast d n items) s fun found _ => found = none := by
  fun_induction walkItemsExceptLast d n items generalizing s with
  | case1 => cases hempty
  | case2 => cases hempty
  | case3 => cases hempty
  | case4 => exact (unref_fs_node_yields d hs).bind fun _ _ _ => yields_pure rfl
  | case5 => exact (unref_fs_node_yields d hs).bind fun _ _ _ => yields_pure rfl
  | case6 n item hitem hshort hrest =>
      exact absurd (List.mem_singleton.mp hempty).symm hitem
  | case7 n item rest hrest hitem hshort hmore ih =>
      refine walk_item_yields d item hs fun found s₁ hs₁ hquiet => ?_
      cases found with
      | none => exact yields_pure rfl
      | some n2 =>
          rw [List.dropLast_cons_of_ne_nil hrest] at hempty
          exact ih n2 ((List.mem_cons.mp hempty).resolve_left (Ne.symm hitem)) hs₁

/-- Two slashes make an empty item, and it is not the last one. -/
theorem empty_item_of_slashes {path : Name} (h : [slash, slash] <:+: path) :
    [] ∈ (pathItems path).dropLast := by
  have hsplit : ∀ before rest : Name,
      [] ∈ ((before ++ slash :: slash :: rest).splitOn slash).dropLast := by
    intro before rest
    have htail : (slash :: rest).splitOn slash = [] :: rest.splitOn slash :=
      List.splitOn_append_cons_self_of_not_mem List.not_mem_nil rest
    rw [List.splitOn_append_cons_self, htail,
      List.dropLast_append_of_ne_nil (List.cons_ne_nil _ _),
      List.dropLast_cons_of_ne_nil (List.splitOn_ne_nil _ _)]
    simp
  obtain ⟨before, rest, rfl⟩ := h
  rw [List.append_assoc]
  unfold pathItems
  split
  · next hhead =>
      cases before with
      | nil =>
          have htail : (slash :: rest).splitOn slash = [] :: rest.splitOn slash :=
            List.splitOn_append_cons_self_of_not_mem List.not_mem_nil rest
          show [] ∈ ((slash :: rest).splitOn slash).dropLast
          rw [htail, List.dropLast_cons_of_ne_nil (List.splitOn_ne_nil _ _)]
          exact List.mem_cons_self
      | cons c before => exact hsplit before rest
  · exact hsplit before rest

end Items

section Walkers

variable {d} {s : Vfs D} {held : NodeId → Nat} {base : NodeId} {path : Name}

theorem skip_slash_sub (hnul : (0 : UInt8) ∉ path) : (0 : UInt8) ∉ skipSlash path := by
  unfold skipSlash
  split
  · exact fun hmem => hnul (List.mem_of_mem_tail hmem)
  · exact hnul

/-- An item has no slash, and its characters are those of the path. -/
theorem mem_split_on {item : Name} (h : item ∈ path.splitOn slash) :
    slash ∉ item ∧ ∀ c ∈ item, c ∈ path := by
  induction hlen : path.length using Nat.strong_induction_on generalizing path with
  | _ len ih =>
      by_cases hslash : slash ∈ path
      · obtain ⟨first, rest, rfl, hfirst⟩ := List.eq_append_cons_of_mem hslash
        rw [split_on_item hfirst] at h
        rcases List.mem_cons.mp h with rfl | hrest
        · exact ⟨hfirst, fun c hc => List.mem_append_left _ hc⟩
        · have hshort : rest.length < len := by
            rw [← hlen, List.length_append, List.length_cons]
            omega
          obtain ⟨hno, hsub⟩ := ih rest.length hshort hrest rfl
          exact ⟨hno, fun c hc => List.mem_append_right _ (List.mem_cons_of_mem _ (hsub c hc))⟩
      · rw [List.splitOn_eq_singleton hslash] at h
        rw [List.mem_singleton.mp h]
        exact ⟨hslash, fun _ hc => hc⟩

theorem path_items_nil (h : pathItems path = [[]]) : skipSlash path = [] := by
  have hjoin : [slash].intercalate ((skipSlash path).splitOn slash) = skipSlash path :=
    List.intercalate_splitOn slash
  rw [← hjoin]
  show [slash].intercalate (pathItems path) = []
  rw [h]
  rfl

/-- `fs_walk_path` walks over the items of its path. -/
theorem fs_walk_path_eq (hnul : (0 : UInt8) ∉ path) (nameBuf : PathBuf) :
    fsWalkPath d base path nameBuf = Kernel.fsWalkPath d base path := by
  unfold fsWalkPath
  rw [walk_loop_eq (skip_slash_sub hnul)]
  rfl

/-- So does `fs_walk_path_except_last`, and it leaves the last item in the buffer. -/
theorem fs_walk_path_except_last_simulates (hnul : (0 : UInt8) ∉ path) (lastFileBuf : PathBuf) :
    Simulates Shows (fsWalkPathExceptLast d base path lastFileBuf)
      (Kernel.fsWalkPathExceptLast d base path) := by
  unfold fsWalkPathExceptLast Kernel.fsWalkPathExceptLast
  by_cases hempty : skipSlash path = []
  · have hitems : pathItems path = [[]] := by
      show (skipSlash path).splitOn slash = [[]]
      rw [hempty]
      rfl
    rw [if_pos hempty, if_pos hitems]
    exact simulates_pure shows_none
  · rw [if_neg hempty, if_neg fun hitems => hempty (path_items_nil hitems)]
    exact simulates_bind _ fun _ => last_loop_simulates hempty (skip_slash_sub hnul)

/-- Where the second walker returns a node the first one goes on from it. -/
theorem fs_walk_path_of_last {n : NodeId} {name : Name} {s' : Vfs D}
    (hrun : Kernel.fsWalkPathExceptLast d base path s = .ok (some (n, name), s'))
    (hs' : Counted s' (plus n held)) : name ∈ pathItems path ∧ IsItem name ∧
      ∃ reached, Yields (fsWalkOne d n name) s' (fun found _ => found = reached) ∧
        Yields (Kernel.fsWalkPath d base path) s fun found _ => found = reached := by
  unfold Kernel.fsWalkPathExceptLast at hrun
  by_cases hempty : pathItems path = [[]]
  · rw [if_pos hempty] at hrun
    cases hrun
  · rw [if_neg hempty] at hrun
    obtain ⟨_, s₁, href, hwalk⟩ := run_bind_eq_ok hrun
    have hsome : pathItems path ≠ [] := List.splitOn_ne_nil _ _
    obtain ⟨hmem, hname, hitems⟩ := walk_items_of_last hsome hempty hwalk
    obtain ⟨reached, s₂, hone, hs₂, -⟩ := fs_walk_one_yields d name hs' (plus_self_pos n held)
    rw [plus_found_comm] at hs₂
    obtain ⟨_, s₃, hunref, -⟩ := unref_fs_node_yields d hs₂
    refine ⟨hmem, hname, reached, ⟨reached, s₂, hone, rfl⟩, reached, s₃, ?_, rfl⟩
    unfold Kernel.fsWalkPath
    rw [run_bind_of_ok href]
    show walkItems d base (pathItems path) s₁ = _
    rw [hitems, run_bind_of_ok hone, run_bind_of_ok hunref]
    rfl

/-- A path with two slashes in a row leads to nothing. -/
theorem walks_reject (hs : Counted s held) {nd : FsNode} (hbase : s.node base = some nd)
    (hlive : 0 < nd.refs) (hslashes : [slash, slash] <:+: path) :
    Yields (Kernel.fsWalkPathExceptLast d base path) s (fun found _ => found = none) ∧
      Yields (Kernel.fsWalkPath d base path) s fun found _ => found = none := by
  have hempty := empty_item_of_slashes hslashes
  constructor
  · unfold Kernel.fsWalkPathExceptLast
    refine yields_ite (fun _ => yields_pure rfl) fun _ => ?_
    refine (ref_fs_node_yields hs hbase hlive).bind fun _ s₁ h => ?_
    exact walk_items_except_last_rejects hempty h.1
  · unfold Kernel.fsWalkPath
    refine (ref_fs_node_yields hs hbase hlive).bind fun _ s₁ h => ?_
    exact walk_items_rejects hempty h.1

/-- What the buffer of the caller holds when a node is returned. -/
structure LastItem (buf : PathBuf) (name : Name) : Prop extends IsItem name where
  holds : Holds buf name
  noSlash : slash ∉ name
  noNul : (0 : UInt8) ∉ name

/-- The walkers agree. Neither writes or reads outside its buffer: that would not come back. -/
theorem path_walkers_agree (d : Driver D) (hs : Counted s held) {nd : FsNode}
    (hbase : s.node base = some nd) (hlive : 0 < nd.refs) (hnul : (0 : UInt8) ∉ path)
    (nameBuf lastFileBuf : PathBuf) :
    Yields (fsWalkPathExceptLast d base path lastFileBuf) s (fun result s' =>
      ∀ n, result.1 = some n → (∃ name, LastItem result.2 name) ∧
        ∃ reached, Yields (fsWalkOneIn d n result.2) s' (fun found _ => found = reached) ∧
          Yields (fsWalkPath d base path nameBuf) s fun found _ => found = reached) ∧
    ([slash, slash] <:+: path →
      Yields (fsWalkPathExceptLast d base path lastFileBuf) s (fun result _ => result.1 = none) ∧
        Yields (fsWalkPath d base path nameBuf) s fun found _ => found = none) := by
  rw [fs_walk_path_eq hnul]
  have hlast := @fs_walk_path_except_last_simulates _ d base path hnul lastFileBuf
  constructor
  · refine (hlast.yields (walk_path_except_last_yields d path hs hbase hlive)).mono ?_
    rintro ⟨found, buf⟩ s' ⟨answer, ⟨hfound, hholds⟩, hrun, hs', -⟩ n hn
    cases answer with
    | none => cases hfound.symm.trans hn
    | some e =>
        obtain ⟨m, name⟩ := e
        cases Option.some.inj (hn.symm.trans hfound)
        have hname := hholds (m, name) rfl
        obtain ⟨hmem, hitem, reached, hone, hwalk⟩ :=
          fs_walk_path_of_last hrun hs'
        obtain ⟨hslash, hsub⟩ := mem_split_on hmem
        have hzero : (0 : UInt8) ∉ name := fun hc => skip_slash_sub hnul (hsub 0 hc)
        refine ⟨⟨name, hitem, hname, hslash, hzero⟩, reached, ?_, hwalk⟩
        have hread : stringIn buf = .ok name := by
          refine string_in_of_holds hname ?_ hzero
          have hshort := hitem.short
          change name.length < 127 at hshort
          omega
        unfold fsWalkOneIn
        rw [hread, lift_ok_bind]
        exact hone
  · intro hslashes
    obtain ⟨hnone, hnone'⟩ := walks_reject (d := d) hs hbase hlive hslashes
    refine ⟨(hlast.yields hnone).mono fun result s' h => ?_, hnone'⟩
    obtain ⟨answer, ⟨hfound, -⟩, -, rfl⟩ := h
    exact hfound

end Walkers

/-- Both walkers on `a/b`, in a new file system, with cleared buffers. -/
theorem path_walkers_agree_two_items :
    Yields (fsWalkPathExceptLast .generous fsRoot [97, slash, 98] (Vector.replicate 128 0))
      (makeFs () fmRead false []) fun result s' =>
        ∀ n, result.1 = some n → (∃ name, LastItem result.2 name) ∧
          ∃ reached,
            Yields (fsWalkOneIn .generous n result.2) s' (fun found _ => found = reached) ∧
            Yields (fsWalkPath .generous fsRoot [97, slash, 98] (Vector.replicate 128 0))
              (makeFs () fmRead false []) fun found _ => found = reached :=
  (path_walkers_agree .generous (make_fs_counted () fmRead []) rfl (by decide) (by decide)
    (Vector.replicate 128 0) (Vector.replicate 128 0)).1

end Kogata.Kernel.PathWalk
