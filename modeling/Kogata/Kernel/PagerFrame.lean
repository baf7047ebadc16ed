import Kogata.Kernel.Pager
import Kogata.Lib.Effect

/-!
# What the inside of a pager operation touches

Everything that `pager.c` runs between taking and releasing a pager's mutex is `Inner`: it takes
no mutex itself, and it changes nothing but the machine's world and the page table of that
pager. One lemma for each function, from the primitives up to `inner_transfer`.
-/

namespace Kogata.Kernel

open Lib.Effect

variable {W : Type}

/-- Nothing changes but the world and the page table of one pager. -/
structure PagesOnly (p : PagerId) (s s' : Vm W) : Prop where
  region : s'.region = s.region
  proc : s'.proc = s.proc
  next : s'.next = s.next
  others : ∀ q ≠ p, s'.pager q = s.pager q
  same : s'.pager p = { s.pager p with pages := (s'.pager p).pages }

instance (p : PagerId) : Std.Refl (PagesOnly (W := W) p) :=
  ⟨fun _ => ⟨rfl, rfl, rfl, fun _ _ => rfl, rfl⟩⟩

instance (p : PagerId) : IsTrans (Vm W) (PagesOnly p) :=
  ⟨fun _ _ _ h h' => ⟨h'.region.trans h.region, h'.proc.trans h.proc, h'.next.trans h.next,
    fun q hq => (h'.others q hq).trans (h.others q hq), by rw [h'.same, h.same]⟩⟩

/-- A program that only touches the page table of a pager, and takes no mutex. -/
structure Inner {α : Type} (p : PagerId) (program : Call W α) : Prop where
  keeps : Keeps (PagesOnly p) program
  free : Avoids .deadlock program

section Rules

variable {p : PagerId} {α β : Type} {program : Call W α}

theorem inner_pure (a : α) : Inner p (pure a : Call W α) :=
  ⟨keeps_pure a, avoids_pure a⟩

theorem inner_throw {stop : Halt} (h : stop ≠ .deadlock) : Inner p (throw stop : Call W α) :=
  ⟨keeps_throw stop, avoids_throw h⟩

/-- One part after another. -/
theorem Inner.bind {rest : α → Call W β} (h : Inner p program)
    (hrest : ∀ a, Inner p (rest a)) : Inner p (program >>= rest) :=
  ⟨h.keeps.bind fun a => (hrest a).keeps, h.free.bind fun a => (hrest a).free⟩

theorem inner_ite {c : Prop} [Decidable c] {other : Call W α} (h : Inner p program)
    (hother : Inner p other) : Inner p (if c then program else other) :=
  ⟨keeps_ite (fun _ => h.keeps) fun _ => hother.keeps,
    avoids_ite (fun _ => h.free) fun _ => hother.free⟩

/-- A test without an `else`. -/
theorem inner_when {c : Prop} [Decidable c] {body : Call W PUnit} (h : Inner p body) :
    Inner p (if c then body else pure ⟨⟩) :=
  inner_ite h (inner_pure _)

theorem inner_for_m {items : List β} {body : β → Call W PUnit} (h : ∀ b, Inner p (body b)) :
    Inner p (items.forM body) :=
  ⟨keeps_for_m fun b _ => (h b).keeps, avoids_for_m fun b _ => (h b).free⟩

theorem inner_foldl_m {items : List β} {body : α → β → Call W α} {start : α}
    (h : ∀ a b, Inner p (body a b)) : Inner p (items.foldlM body start) := by
  induction items generalizing start with
  | nil => exact inner_pure start
  | cons b items ih => exact (h start b).bind fun _ => ih

theorem inner_get : Inner p (get : Call W (Vm W)) :=
  ⟨keeps_get, avoids_modify_get _⟩

/-- A call of the machine that answers. -/
theorem inner_ask (question : W → α × W) : Inner p (ask question) where
  keeps := by
    intro s a s' h
    cases h
    exact ⟨rfl, rfl, rfl, fun _ _ => rfl, rfl⟩
  free := avoids_modify_get _

theorem inner_tell (change : W → W) : Inner p (tell change) where
  keeps := keeps_modify fun _ => ⟨rfl, rfl, rfl, fun _ _ => rfl, rfl⟩
  free := avoids_modify_get _

theorem inner_assert (c : Bool) : Inner p (assert c : Call W Unit) :=
  inner_ite (inner_pure _) (inner_throw (by decide))

theorem inner_the_pager (q : PagerId) : Inner p (thePager q : Call W Pager) :=
  inner_get.bind fun _ => inner_pure _

theorem inner_the_region (r : RegionId) : Inner p (theRegion r : Call W UserRegion) :=
  inner_get.bind fun _ => inner_pure _

theorem inner_find_page (q : PagerId) (page : UInt32) :
    Inner p (findPage q page : Call W UInt32) :=
  (inner_the_pager q).bind fun _ => inner_pure _

theorem inner_put_page (p : PagerId) (page entry : UInt32) :
    Inner p (putPage p page entry : Call W Unit) where
  keeps := keeps_modify fun _ => ⟨rfl, rfl, rfl, fun _ hq => Function.update_of_ne hq _ _, by
    simp⟩
  free := avoids_modify_get _

/-- A loop over the pages of a range. -/
theorem inner_for_pages {first len : UInt32} {body : UInt32 → Call W Unit}
    (h : ∀ page, Inner p (body page)) : Inner p (forPages first len body) :=
  (inner_for_m h).bind fun _ => inner_when (inner_throw (by decide))

end Rules

variable (m : Machine W) (p : PagerId)

theorem inner_add_page (page entry : UInt32) : Inner p (addPage m p page entry) :=
  (inner_ask _).bind fun _ =>
    inner_ite ((inner_put_page p page entry).bind fun _ => inner_pure _) (inner_pure _)

theorem inner_swap_page_in (offset len : UInt32) : Inner p (swapPageIn m p offset len) := by
  refine (inner_assert _).bind fun _ => (inner_ask _).bind fun region => ?_
  refine inner_ite (inner_pure _) (.bind (inner_for_pages fun page => ?_) fun _ => inner_tell _)
  refine (inner_find_page p page).bind fun _ => inner_when ((inner_ask _).bind fun frame => ?_)
  refine inner_when ((inner_ask _).bind fun mapped => inner_when ?_)
  refine .bind (inner_tell _) fun _ => .bind (inner_tell _) fun _ => ?_
  exact (inner_add_page m p page _).bind fun _ => inner_when (inner_tell _)

theorem inner_swap_page_release (offset len : UInt32) :
    Inner p (swapPageRelease m p offset len) := by
  refine (inner_assert _).bind fun _ => inner_for_pages fun page => ?_
  refine (inner_find_page p page).bind fun _ => inner_when ?_
  exact (inner_put_page p page 0).bind fun _ => inner_tell _

theorem inner_vfs_load_page (v : VfsPager) (region page frame : UInt32) :
    Inner p (vfsLoadPage m p v region page frame) := by
  refine (inner_ask _).bind fun mapped => inner_ite ?_ (inner_pure _)
  have hrest : ∀ expect, Inner p (do
      let readLen ← ask (m.vfsRead v.node page expect region)
      tell (m.pdUnmapPage .kernel region)
      if readLen ≠ expect then return false
      else addPage m p page (frame <<< entFrameShift)) := fun expect =>
    .bind (inner_ask _) fun readLen => .bind (inner_tell _) fun _ =>
      inner_ite (inner_pure _) (inner_add_page m p page _)
  refine (inner_the_pager p).bind fun pg => inner_ite ?_ (hrest _)
  exact .bind (inner_tell _) fun _ => hrest _

theorem inner_vfs_page_in (v : VfsPager) (offset len : UInt32) :
    Inner p (vfsPageIn m p v offset len) := by
  refine (inner_assert _).bind fun _ => (inner_assert _).bind fun _ => ?_
  refine (inner_ask _).bind fun region => inner_ite (inner_pure _) ?_
  refine .bind (inner_for_pages fun page => ?_) fun _ => inner_tell _
  refine (inner_find_page p page).bind fun _ => inner_when ((inner_ask _).bind fun frame => ?_)
  refine inner_when ((inner_vfs_load_page m p v region page frame).bind fun _ => ?_)
  exact inner_when (inner_tell _)

theorem inner_vfs_page_commit (v : VfsPager) (offset len : UInt32) :
    Inner p (vfsPageCommit m p v offset len) := by
  refine (inner_assert _).bind fun _ => (inner_assert _).bind fun _ => ?_
  refine (inner_ask _).bind fun region => inner_ite (inner_pure _) ?_
  refine .bind (inner_for_pages fun page => ?_) fun _ => inner_tell _
  refine (inner_find_page p page).bind fun ent => inner_when ?_
  refine (inner_the_pager p).bind fun pg => (inner_ask _).bind fun mapped => inner_when ?_
  refine inner_ite ((inner_ask _).bind fun writeLen => ?_) (inner_tell _)
  exact inner_ite ((inner_put_page p page _).bind fun _ => inner_tell _) (inner_tell _)

theorem inner_vfs_page_release (v : VfsPager) (offset len : UInt32) :
    Inner p (vfsPageRelease m p v offset len) := by
  refine (inner_assert _).bind fun _ => (inner_assert _).bind fun _ => ?_
  refine inner_for_pages fun page => (inner_find_page p page).bind fun _ => inner_when ?_
  exact (inner_put_page p page 0).bind fun _ => inner_tell _

theorem inner_device_page_in (physOffset offset len : UInt32) :
    Inner p (devicePageIn m p physOffset offset len) := by
  refine (inner_assert _).bind fun _ => inner_for_pages fun page => ?_
  refine (inner_find_page p page).bind fun _ => inner_when ?_
  exact (inner_add_page m p page _).bind fun _ => inner_pure _

theorem inner_device_page_release (offset len : UInt32) :
    Inner p (devicePageRelease p offset len : Call W Unit) :=
  (inner_assert _).bind fun _ => inner_for_pages fun page => inner_put_page p page 0

/-- The `page_in` of any kind of pager. -/
theorem inner_page_in (offset len : UInt32) : Inner p (pageIn m p offset len) := by
  refine (inner_the_pager p).bind fun pg => ?_
  cases pg.ops with
  | swap allowResize => exact inner_swap_page_in m p offset len
  | vfs v => exact inner_vfs_page_in m p v offset len
  | device physOffset => exact inner_device_page_in m p physOffset offset len

/-- The `page_release` of any kind of pager. -/
theorem inner_page_release (offset len : UInt32) : Inner p (pageRelease m p offset len) := by
  refine (inner_the_pager p).bind fun pg => ?_
  cases pg.ops with
  | swap allowResize => exact inner_swap_page_release m p offset len
  | vfs v => exact inner_vfs_page_release m p v offset len
  | device physOffset => exact inner_device_page_release p offset len

theorem inner_pager_unmap (q : PagerId) (offset len : UInt32) :
    Inner p (pagerUnmap m q offset len) := by
  refine (inner_the_pager q).bind fun pg => inner_for_m fun it => ?_
  refine (inner_the_region it).bind fun r => inner_for_pages fun _ => ?_
  exact (inner_ask _).bind fun entry => inner_when (inner_tell _)

theorem inner_map_pages (q : PagerId) (region firstPage : UInt32) (write : Bool)
    (pages : List UInt32) : Inner p (mapPages m q region firstPage write pages) := by
  induction pages with
  | nil => exact inner_pure _
  | cons i rest ih =>
      refine (inner_find_page q i).bind fun _ => inner_ite (inner_pure _) ?_
      exact (inner_ask _).bind fun _ => inner_ite ih (inner_pure _)

/-- The pages are mapped and the bytes copied. -/
theorem inner_transfer (offset len firstPage regionLen region : UInt32)
    (data : Option (List UInt8)) :
    Inner p (transfer m p offset len firstPage regionLen region data) := by
  refine (inner_page_in m p firstPage regionLen).bind fun _ => ?_
  refine (inner_map_pages m p p region firstPage data.isSome _).bind fun _ => ?_
  refine inner_ite (inner_ite (inner_throw (by decide)) ?_) (inner_pure _)
  cases data with
  | none => exact inner_get.bind fun _ => inner_pure _
  | some buf =>
      refine (inner_tell _).bind fun _ => .bind (inner_for_pages fun page => ?_) fun _ =>
        inner_pure _
      refine (inner_find_page p page).bind fun v => (inner_assert _).bind fun _ => ?_
      exact inner_put_page p page _

theorem inner_drop_region (region regionLen : UInt32) :
    Inner p (dropRegion m region regionLen) := by
  refine .bind (inner_for_pages fun x => ?_) fun _ => inner_tell _
  exact (inner_ask _).bind fun _ => inner_when (inner_tell _)

end Kogata.Kernel
