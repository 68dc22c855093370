import Mathlib
import ShellCore.Sched.RbUnlink

/-!
# The run-queue tree as a sorted map

`Wf t T` is the representation invariant: the arena `t` holds the red-black search tree `T` and
nothing else. Every operation keeps it, never fails, and answers as a finite sorted map does. Which
of several entries that satisfy its predicate `remove_where` takes depends on their slots.
-/

namespace ShellCore.Sched

open List hiding after

open ShellCore.Tree Path Option

variable {K V : Type} [LinearOrder K] {t t' : RbRootCached K V} {T : Tree (Item K V)} {p : Path (Item K V)}
  {u : Tree (Item K V)} {key : K} {value : V} {m : Nat} {x : Item K V}

/-- Search order. -/
def Ordered (l : List (Item K V)) : Prop := l.Pairwise fun x y => x.key < y.key

/-- The representation invariant. -/
structure Wf (t : RbRootCached K V) (T : Tree (Item K V)) : Prop extends Kept t T.entries where
  rep : Rep t T
  redBlack : T.IsRedBlack
  ordered : Ordered T.entries

/-- The map that the tree stands for. -/
def contents (T : Tree (Item K V)) : List (K × V) := T.entries.map fun x => (x.key, x.value)

namespace RbRootCached

/-! ## Searching -/

/-- `insert` finds the gap between the smaller and the larger keys. -/
theorem findParent_rep (key : K) (h : Rep t (plug p u)) (hord : Ordered (plug p u).entries)
    (hlo : ∀ z ∈ before p, z.key ≤ key) (hhi : ∀ z ∈ after p, key < z.key)
    (hfuel : u.entries.length < m) :
    ∃ p', t.findParent key m (up p) (slot u) = some (up p') ∧ plug p' nil = plug p u ∧
      (∀ z ∈ before p', z.key ≤ key) ∧ ∀ z ∈ after p', key < z.key := by
  induction u generalizing p m with
  | nil =>
    obtain ⟨m, rfl⟩ : ∃ k, m = k + 1 := ⟨m - 1, by omega⟩
    exact ⟨p, rfl, rfl, hlo, hhi⟩
  | node c l x r ihl ihr =>
    obtain ⟨m, rfl⟩ : ∃ k, m = k + 1 := ⟨m - 1, by omega⟩
    simp only [entries, length_append, length_cons] at hfuel
    have hget : t.get x.index = some (cell .left x (up p) (slot l) (slot r) c) := Rep.get (s := .left) h
    have hsub : Ordered (l.entries ++ x :: r.entries) := by
      rw [entries_plug] at hord
      exact (pairwise_append.1 (pairwise_append.1 hord).1).2.1
    obtain ⟨-, hxr, hlx⟩ := pairwise_append.1 hsub
    by_cases hlt : key < x.key
    · have hlo' : ∀ z ∈ before (⟨.left, c, x, r⟩ :: p), z.key ≤ key := by simpa [before] using hlo
      have hhi' : ∀ z ∈ after (⟨.left, c, x, r⟩ :: p), key < z.key := by
        intro z hz
        simp only [after, List.mem_append, List.mem_cons] at hz
        rcases hz with (rfl | hz) | hz
        · exact hlt
        · exact lt_trans hlt (rel_of_pairwise_cons hxr hz)
        · exact hhi z hz
      obtain ⟨p', hrun, hpath'⟩ := ihl (m := m) h hord hlo' hhi' (by omega)
      refine ⟨p', ?_, hpath'⟩
      show t.findParent key (m + 1) (up p) (some x.index) = _
      simp only [findParent, hget, bind_eq_bind, bind_some, cell_key, if_pos hlt]
      exact hrun
    · have hlo' : ∀ z ∈ before (⟨.right, c, x, l⟩ :: p), z.key ≤ key := by
        intro z hz
        simp only [before, List.mem_append, mem_singleton] at hz
        rcases hz with hz | hz | rfl
        · exact hlo z hz
        · exact le_trans (le_of_lt (hlx z hz x List.mem_cons_self)) (not_lt.1 hlt)
        · exact not_lt.1 hlt
      have hhi' : ∀ z ∈ after (⟨.right, c, x, l⟩ :: p), key < z.key := by simpa [after] using hhi
      obtain ⟨p', hrun, hpath'⟩ := ihr (m := m) h hord hlo' hhi' (by omega)
      refine ⟨p', ?_, hpath'⟩
      show t.findParent key (m + 1) (up p) (some x.index) = _
      simp only [findParent, hget, bind_eq_bind, bind_some, cell_key, if_neg hlt]
      exact hrun

/-- `remove` finds the entry with the key. -/
theorem findKey_rep (key : K) (h : Rep t (plug p u)) (hord : Ordered u.entries) (hfuel : u.entries.length < m) :
    (t.findKey key m (slot u) = some none ∧ ∀ z ∈ u.entries, z.key ≠ key) ∨
    ∃ p' c l x r, t.findKey key m (slot u) = some (some x.index) ∧ x.key = key ∧
      plug p u = plug p' (join .left c l x r) := by
  induction u generalizing p m with
  | nil =>
    obtain ⟨m, rfl⟩ : ∃ k, m = k + 1 := ⟨m - 1, by omega⟩
    exact .inl ⟨rfl, nofun⟩
  | node c l x r ihl ihr =>
    obtain ⟨m, rfl⟩ : ∃ k, m = k + 1 := ⟨m - 1, by omega⟩
    simp only [entries, length_append, length_cons] at hfuel
    have hget : t.get x.index = some (cell .left x (up p) (slot l) (slot r) c) := Rep.get (s := .left) h
    obtain ⟨hl, hxr, hlx⟩ := pairwise_append.1 hord
    obtain ⟨hxr, hr⟩ := pairwise_cons.1 hxr
    by_cases heq : key = x.key
    · refine .inr ⟨p, c, l, x, r, ?_, heq.symm, rfl⟩
      show t.findKey key (m + 1) (some x.index) = _
      simp only [findKey, hget, bind_eq_bind, bind_some, cell_key, if_pos heq, pure]
    have hstep : t.findKey key (m + 1) (slot (node c l x r)) =
        t.findKey key m (if key < x.key then slot l else slot r) := by
      show t.findKey key (m + 1) (some x.index) = _
      simp only [findKey, hget, bind_eq_bind, bind_some, cell_key, if_neg heq]
      rfl
    rw [hstep]
    by_cases hlt : key < x.key
    · rw [if_pos hlt]
      rcases ihl (p := ⟨.left, c, x, r⟩ :: p) (m := m) h hl (by omega) with ⟨hrun, hno⟩ | hfound
      · refine .inl ⟨hrun, fun z hz => ?_⟩
        rcases List.mem_append.1 hz with hz | hz
        · exact hno z hz
        · rcases List.mem_cons.1 hz with rfl | hz
          · exact Ne.symm heq
          · exact ne_of_gt (lt_trans hlt (hxr z hz))
      · exact .inr hfound
    · rw [if_neg hlt]
      rcases ihr (p := ⟨.right, c, x, l⟩ :: p) (m := m) h hr (by omega) with ⟨hrun, hno⟩ | hfound
      · refine .inl ⟨hrun, fun z hz => ?_⟩
        have hgt : x.key < key := lt_of_le_of_ne (not_lt.1 hlt) (Ne.symm heq)
        rcases List.mem_append.1 hz with hz | hz
        · exact ne_of_lt (lt_trans (hlx z hz x List.mem_cons_self) hgt)
        · rcases List.mem_cons.1 hz with rfl | hz
          · exact Ne.symm heq
          · exact hno z hz
      · exact .inr hfound

/-! ## Inserting -/

/-- The new node is linked into its gap. -/
theorem linkNew_spec (index : Nat) (h : PathEnc t.get p none t.root) (hn : (pathSlots p).Nodup)
    (hlo : ∀ z ∈ before p, z.key ≤ key) (hhi : ∀ z ∈ after p, key < z.key) :
    ∃ t', t.linkNew (up p) key index = some t' ∧ PathEnc t'.get p (some index) t'.root ∧
      (∀ j, j ∉ pathSlots p → t'.get j = t.get j) ∧ SameSlots t t' := by
  cases p with
  | nil => exact ⟨{ t with root := some index }, rfl, rfl, fun _ _ => rfl, rfl, rfl, rfl, rfl, fun _ => rfl⟩
  | cons f rest =>
    have hside : (if key < f.label.key then Side.left else .right) = f.side := by
      obtain ⟨side, c, x, sib⟩ := f
      cases side with
      | left => exact if_pos (hhi x (by simp [after]))
      | right => exact if_neg (not_lt.2 (hlo x (by simp [before])))
    obtain ⟨t', ht', hspec⟩ := setHole_spec h hn (some index)
    refine ⟨t', ?_, hspec⟩
    rw [up_cons, linkNew, h.1]
    simp only [bind_eq_bind, bind_some, cell_key, hside, ht']

/-- The cache names the first entry again. -/
theorem cacheLeftmost_spec {pre post : List (Item K V)} (hleft : t.leftmost = (pre ++ post).head?.map Item.index)
    (hget : ∀ z ∈ pre ++ post, (t.get z.index).map RbNode.key = some z.key) (hlo : ∀ z ∈ pre, z.key < x.key)
    (hhi : ∀ z ∈ post, x.key < z.key) :
    t.cacheLeftmost x.key x.index = some { t with leftmost := (pre ++ x :: post).head?.map Item.index } := by
  have hold : ∀ z, (pre ++ post).head? = some z → t.cacheLeftmost x.key x.index =
      some (if x.key < z.key then { t with leftmost := some x.index } else t) := by
    intro z hz
    obtain ⟨n, hn, hkey⟩ := map_eq_some_iff.1 (hget z (mem_of_mem_head? hz))
    rw [hz, map_some] at hleft
    rw [cacheLeftmost, hleft]
    simp only [hn, bind_eq_bind, bind_some, hkey, pure]
  cases pre with
  | nil =>
    cases post with
    | nil => rw [cacheLeftmost, hleft]; rfl
    | cons z post =>
      rw [hold z rfl, if_pos (hhi z List.mem_cons_self)]
      rfl
  | cons z pre =>
    rw [hold z rfl, if_neg (not_lt.2 (le_of_lt (hlo z List.mem_cons_self)))]
    simp only [cons_append, head?_cons, map_some] at hleft ⊢
    rw [← hleft]

end RbRootCached

/-- What `insert` does to a sorted map without the key. -/
def insertEntry (key : K) (value : V) (m : List (K × V)) : List (K × V) :=
  m.filter (fun e => e.1 < key) ++ (key, value) :: m.filter fun e => key < e.1

theorem insertEntry_map {pre post : List (Item K V)} (hlo : ∀ z ∈ pre, z.key < x.key)
    (hhi : ∀ z ∈ post, x.key < z.key) :
    insertEntry x.key x.value ((pre ++ post).map fun x => (x.key, x.value)) =
      (pre ++ x :: post).map fun x => (x.key, x.value) := by
  have hpre : ∀ z ∈ pre, ¬ x.key < z.key := fun z hz => not_lt.2 (le_of_lt (hlo z hz))
  have hpost : ∀ z ∈ post, ¬ z.key < x.key := fun z hz => not_lt.2 (le_of_lt (hhi z hz))
  have h₁ : pre.filter (fun z => decide (z.key < x.key)) = pre := filter_eq_self.2 fun z hz => decide_eq_true (hlo z hz)
  have h₂ : post.filter (fun z => decide (z.key < x.key)) = [] :=
    filter_eq_nil_iff.2 fun z hz => by simpa using hpost z hz
  have h₃ : pre.filter (fun z => decide (x.key < z.key)) = [] :=
    filter_eq_nil_iff.2 fun z hz => by simpa using hpre z hz
  have h₄ : post.filter (fun z => decide (x.key < z.key)) = post :=
    filter_eq_self.2 fun z hz => decide_eq_true (hhi z hz)
  simp only [insertEntry, List.filter_map, Function.comp_def, filter_append, map_append, map_cons, h₁, h₂,
    h₃, h₄, map_nil, append_nil, nil_append]

/-- Linking a new red node into its gap. -/
theorem linkNew_rep (h : Wf t (plug p nil)) (hlo : ∀ z ∈ before p, z.key ≤ key)
    (hhi : ∀ z ∈ after p, key < z.key) (value : V) :
    ∃ t₁ index t₂, t.place ⟨key, value, up p, none, none, .red⟩ = some (t₁, index) ∧
      t₁.linkNew (up p) key index = some t₂ ∧
      Rep t₂ (plug p (join .left .red nil ⟨index, key, value⟩ nil)) ∧
      (∀ i, (t₂.get i).isSome = true ↔ i = index ∨ (t.get i).isSome = true) ∧
      t₂.leftmost = t.leftmost ∧ t₂.len = t.len ∧ t₂.freeSlots.Nodup ∧
      ∀ i, i ∈ t₂.freeSlots ↔ i < t₂.nodes.length ∧ t₂.get i = none := by
  obtain ⟨t₁, index, e₁, hfresh, hget, f₁, r₁, l₁, n₁, hnodup, hfree⟩ := RbRootCached.place_spec h.freeNodup h.free
    ⟨key, value, up p, none, none, .red⟩
  have hidx : index ∉ slots (plug p nil) := by
    intro hm
    have := h.rep.enc.get_isSome hm
    rw [hfresh] at this
    cases this
  obtain ⟨-, hpn, -⟩ := nodup_slots_plug.1 h.rep.nodup
  have hip : index ∉ pathSlots p := fun hm => hidx (mem_slots_plug.2 (.inr hm))
  have c₁ : PathEnc t₁.get p none t₁.root := by
    rw [r₁]
    exact h.rep.context.congr fun j hj => f₁ j fun hji => hip (hji ▸ hj)
  obtain ⟨t₂, e₂, c₂, f₂, s₂⟩ := RbRootCached.linkNew_spec index c₁ hpn hlo hhi
  refine ⟨t₁, index, t₂, e₁, e₂, ?_, ?_, s₂.leftmost.trans l₁, s₂.len.trans n₁, s₂.freeSlots ▸ hnodup, ?_⟩
  · obtain ⟨henc, hroot⟩ := (enc_plug (u := join .left .red nil (⟨index, key, value⟩ : Item K V) nil)).2
      ⟨by rwa [slot_join], enc_join.2 ⟨(f₂ index hip).trans hget, trivial, trivial⟩⟩
    refine ⟨henc, hroot, nodup_slots_plug.2 ⟨?_, hpn, ?_⟩⟩
    · simp [slots, around, entries_join]
    · intro j hj
      rw [mem_slots_join, slots_nil] at hj
      obtain rfl : j = index := by simpa using hj
      exact hip
  · intro i
    rw [s₂.filled]
    by_cases hi : i = index
    · simp [hi, hget]
    · simp [hi, f₁ i hi]
  · intro i
    rw [s₂.freeSlots, hfree, s₂.length, ← not_isSome_iff_eq_none, ← not_isSome_iff_eq_none, s₂.filled]

namespace Wf

/-- `insert` never fails and inserts. -/
theorem insert (h : Wf t T) (hnew : ∀ z ∈ T.entries, z.key ≠ key) (value : V) :
    ∃ t' T', t.insert key value = some t' ∧ Wf t' T' ∧ contents T' = insertEntry key value (contents T) := by
  obtain ⟨p, hfind, hplug, hlo, hhi⟩ := RbRootCached.findParent_rep key (p := [])
    (m := t.nodes.length + 1) h.rep h.ordered nofun nofun (Nat.lt_succ_of_le h.rep.length_le)
  rw [plug_nil] at hplug
  subst hplug
  have hent : (plug p nil).entries = before p ++ after p := by simp [entries_plug]
  have hlt : ∀ z ∈ before p, z.key < key := fun z hz =>
    lt_of_le_of_ne (hlo z hz) (hnew z (by rw [hent]; exact mem_append_left _ hz))
  obtain ⟨t₁, index, t₂, e₁, e₂, h₂, hfilled, hleft, hlen, hnodup, hfree⟩ := linkNew_rep h hlo hhi value
  have hent₂ : (plug p (join .left .red nil (⟨index, key, value⟩ : Item K V) nil)).entries =
      before p ++ ⟨index, key, value⟩ :: after p := by simp [entries_plug, around]
  have hcached : t₂.leftmost = (before p ++ after p).head?.map Item.index := by
    rw [hleft, h.leftmost, hent]
  have hkeys : ∀ z ∈ before p ++ after p, (t₂.get z.index).map RbNode.key = some z.key := by
    intro z hz
    have hz' : z ∈ before p ++ ⟨index, key, value⟩ :: after p := by
      simp only [List.mem_append, List.mem_cons] at hz ⊢
      tauto
    obtain ⟨n, hn, hkey, -⟩ := h₂.enc.get_key (hent₂ ▸ hz')
    rw [hn, map_some, hkey]
  have e₃ := RbRootCached.cacheLeftmost_spec (x := ⟨index, key, value⟩) hcached hkeys hlt hhi
  rw [← hent₂] at e₃
  generalize hT₂ : plug p (join .left .red nil (⟨index, key, value⟩ : Item K V) nil) = T₂ at h₂ hent₂ e₃
  -- the records fit the entries with the new one; only the repair is left
  have hkept : Kept { t₂ with leftmost := T₂.entries.head?.map Item.index, len := t₂.len + 1 } T₂.entries := by
    refine ⟨fun i hi => ?_, hnodup, hfree, rfl, ?_⟩
    · rw [hent₂]
      rcases (hfilled i).1 hi with rfl | hi
      · simp
      · have := h.filled i hi
        rw [hent] at this
        simp only [map_append, map_cons, List.mem_append, List.mem_cons] at this ⊢
        tauto
    · show t₂.len + 1 = _
      rw [hlen, h.len, hent, hent₂]
      simp only [length_append, length_cons]
      omega
  have hrep : Rep { t₂ with leftmost := T₂.entries.head?.map Item.index, len := t₂.len + 1 } T₂ :=
    ⟨h₂.enc, h₂.root, h₂.nodup⟩
  obtain ⟨N, hN⟩ := h.redBlack.bal
  obtain ⟨n, hn, hbal⟩ := exists_bal_of_plug hN
  obtain rfl : n = 0 := hn
  have htop := h.redBlack.color
  rw [color_plug] at htop
  have hfuel : p.length < t₂.nodes.length + 1 :=
    Nat.lt_succ_of_le (Nat.le_trans (hT₂ ▸ length_le_entries) h₂.length_le)
  have hsound : (nil : Tree (Item K V)).Sound 0 := ⟨rfl, trivial, rfl⟩
  subst hT₂
  obtain ⟨t', T', e₄, hr, hent', hrb, hs⟩ := RbRootCached.insertFixupLoop_rep hfuel hrep hsound hsound
    ⟨hbal, (noRedRed_of_plug h.redBlack.noRedRed).2, htop⟩
  refine ⟨t', T', ?_, ⟨hent' ▸ hkept.same hs, hr, hrb, ?_⟩, ?_⟩
  · have hfind' : t.findParent key (t.nodes.length + 1) none t.root = some (up p) := h.rep.root ▸ hfind
    simp only [RbRootCached.insert, hfind', e₁, e₂, e₃, bind_eq_bind, bind_some]
    exact e₄
  · rw [hent', hent₂]
    have hord := h.ordered
    rw [hent] at hord
    obtain ⟨hb, ha, hba⟩ := pairwise_append.1 hord
    refine pairwise_append.2 ⟨hb, pairwise_cons.2 ⟨hhi, ha⟩, fun y hy z hz => ?_⟩
    rcases List.mem_cons.1 hz with rfl | hz
    · exact hlt y hy
    · exact hba y hy z hz
  · rw [contents, contents, hent', hent₂, hent]
    exact (insertEntry_map (x := ⟨index, key, value⟩) hlt hhi).symm

end Wf

/-! ## Removing -/

namespace Wf

/-- Removing a node of the tree never fails and takes out its entry. -/
theorem removeAt {c : Color} {l r : Tree (Item K V)} (h : Wf t (plug p (join .left c l x r))) :
    ∃ t' T' pre post, t.removeAt x.index = some (t', x.value) ∧ Wf t' T' ∧
      (plug p (join .left c l x r)).entries = pre ++ x :: post ∧ T'.entries = pre ++ post := by
  obtain ⟨v, p', u, N, e₁, hrepl, hparent, h₁, hval, s₁, hby⟩ := RbRootCached.unlink_rep h.rep h.redBlack
  obtain ⟨pre, post, hold, hnew⟩ := hby.entries
  obtain ⟨n, hn, hnv⟩ := map_eq_some_iff.1 hval
  have hsome : (v.tree.get x.index).isSome = true := by rw [hn]; rfl
  have hkept := h.toKept.drop s₁ hold hsome
  generalize ht₂ : ({ v.tree with
      nodes := v.tree.nodes.set x.index none
      freeSlots := x.index :: v.tree.freeSlots
      leftmost := (pre ++ post).head?.map Item.index
      len := v.tree.len - 1 } : RbRootCached K V) = t₂ at hkept
  have hxin : x.index ∉ slots (plug p' u) := by
    have hnodup := h.rep.nodup
    rw [slots, hold, map_append, map_cons, nodup_middle, nodup_cons] at hnodup
    rw [slots, hnew, map_append]
    exact hnodup.1
  have hget : ∀ i ∈ slots (plug p' u), (v.tree.nodes.set x.index none)[i]?.join = v.tree.get i := by
    intro i hi
    have hix : x.index ≠ i := fun he => hxin (he ▸ hi)
    rw [getElem?_set_ne hix]
    rfl
  have h₂ : Rep t₂ (plug p' u) := ht₂ ▸ h₁.congr hget rfl
  have hleft := RbRootCached.findLeftmost_rep (t := { v.tree with
      nodes := v.tree.nodes.set x.index none
      freeSlots := x.index :: v.tree.freeSlots
      len := v.tree.len - 1 }) (h₁.congr hget rfl)
  rw [hnew] at hleft
  have hrun : t.removeAt x.index = (if v.removedColor = .black then
      t₂.deleteFixup v.replacement v.replacementParent else some t₂).map fun t => (t, x.value) := by
    simp only [RbRootCached.removeAt, e₁, RbRootCached.take, hn, hnv, hleft, bind_eq_bind, bind_some,
      map_some, ht₂, pure]
    by_cases hc : v.removedColor = .black
    · rw [if_pos hc, if_pos hc, map_eq_bind]
      rfl
    · rw [if_neg hc, if_neg hc]
      rfl
  rw [hrun, hrepl, hparent]
  have hord : Ordered (pre ++ post) := by
    have := h.ordered
    rw [hold] at this
    exact this.sublist (Sublist.append_left (sublist_cons_self _ _) _)
  cases hc : v.removedColor with
  | red =>
    rw [hc] at hby
    refine ⟨t₂, _, pre, post, rfl, ⟨hnew ▸ hkept, h₂, hby.isRedBlack, hnew ▸ hord⟩, hold, hnew⟩
  | black =>
    rw [hc] at hby
    obtain ⟨n, hbal, hpbal⟩ := hby.bal
    have hfuel : p'.length + 1 < t₂.nodes.length + 2 :=
      Nat.add_lt_add_right (Nat.lt_succ_of_le (Nat.le_trans length_le_entries h₂.length_le)) 1
    obtain ⟨t', T', e₂, h₃, hent, hrb, s₃⟩ := RbRootCached.deleteFixupLoop_rep hfuel h₂ hbal hby.noRedRed.blacken hpbal
      hby.pathNoRedRed hby.top
    rw [hnew] at hent
    refine ⟨t', T', pre, post, ?_, ⟨hent ▸ hkept.same s₃, h₃, hrb, hent ▸ hord⟩, hold, hent⟩
    rw [if_pos rfl, RbRootCached.deleteFixup, e₂, map_some]

omit [LinearOrder K] in
theorem mem_contents {e : K × V} : e ∈ contents T ↔ ∃ z ∈ T.entries, (z.key, z.value) = e := mem_map

variable (h : Wf t T)

include h

/-- `remove` answers with the value of the key and takes it out. -/
theorem remove (key : K) :
    ∃ t' T', t.remove key = some (t', ((contents T).find? fun e => e.1 = key).map Prod.snd) ∧ Wf t' T' ∧
      contents T' = (contents T).filter fun e => e.1 ≠ key := by
  rcases RbRootCached.findKey_rep key (p := []) (m := t.nodes.length + 1) h.rep h.ordered
    (Nat.lt_succ_of_le h.rep.length_le) with ⟨hrun, hno⟩ | ⟨p, c, l, x, r, hrun, rfl, hplug⟩
  · rw [← h.rep.root] at hrun
    have hmiss : ∀ e ∈ contents T, e.1 ≠ key := by
      intro e he
      obtain ⟨z, hz, rfl⟩ := mem_contents.1 he
      exact hno z hz
    refine ⟨t, T, ?_, h, (filter_eq_self.2 fun e he => decide_eq_true (hmiss e he)).symm⟩
    have hfind : (contents T).find? (fun e => decide (e.1 = key)) = none :=
      find?_eq_none.2 fun e he => by simpa using hmiss e he
    simp only [RbRootCached.remove, hrun, hfind, bind_eq_bind, bind_some, map_none, pure]
  · rw [← h.rep.root] at hrun
    rw [plug_nil] at hplug
    subst hplug
    obtain ⟨t', T', pre, post, e₁, h', hold, hnew⟩ := h.removeAt
    have hord := h.ordered
    rw [hold] at hord
    obtain ⟨-, hpost, hpre⟩ := pairwise_append.1 hord
    have hpre' : ∀ z ∈ pre, z.key ≠ x.key := fun z hz => ne_of_lt (hpre z hz x List.mem_cons_self)
    have hpost' : ∀ z ∈ post, z.key ≠ x.key := fun z hz => ne_of_gt (rel_of_pairwise_cons hpost hz)
    refine ⟨t', T', ?_, h', ?_⟩
    · have hfind : (contents (plug p (join .left c l x r))).find? (fun e => decide (e.1 = x.key)) =
          some (x.key, x.value) := by
        rw [contents, hold, map_append, find?_append, find?_eq_none.2, none_or, map_cons,
          find?_cons_of_pos (by simp)]
        intro e he
        obtain ⟨z, hz, rfl⟩ := mem_map.1 he
        simpa using hpre' z hz
      simp only [RbRootCached.remove, hrun, e₁, hfind, bind_eq_bind, bind_some, map_some, pure]
    · have h₁ : pre.filter (fun z => decide (z.key ≠ x.key)) = pre :=
        filter_eq_self.2 fun z hz => decide_eq_true (hpre' z hz)
      have h₂ : post.filter (fun z => decide (z.key ≠ x.key)) = post :=
        filter_eq_self.2 fun z hz => decide_eq_true (hpost' z hz)
      rw [contents, contents, hnew, hold, List.filter_map]
      simp only [Function.comp_def, filter_append, h₁, filter_cons, ne_eq, not_true_eq_false, decide_false,
        Bool.false_eq_true, if_false]
      rw [show post.filter (fun z => decide ¬ z.key = x.key) = post from h₂]

/-- The cached node is the entry with the least key. -/
theorem first_eq : t.firstKey = (contents T).head?.map Prod.fst ∧ t.first = (contents T).head?.map Prod.snd := by
  rw [RbRootCached.firstKey, RbRootCached.first, h.leftmost, contents]
  cases hT : T.entries with
  | nil => exact ⟨rfl, rfl⟩
  | cons x l =>
    obtain ⟨n, hn, hkey, hvalue⟩ := h.rep.enc.get_key (x := x) (by rw [hT]; exact List.mem_cons_self)
    simp [hn, hkey, hvalue]

theorem keys_lt : (contents T).Pairwise fun e e' => e.1 < e'.1 := pairwise_map.2 h.ordered

/-- `pop_first` takes the entry with the least key. -/
theorem popFirst :
    ∃ t' T', t.popFirst = some (t', (contents T).head?.map Prod.snd) ∧ Wf t' T' ∧ contents T' = (contents T).tail := by
  cases hm : contents T with
  | nil =>
    refine ⟨t, T, ?_, h, hm⟩
    rw [RbRootCached.popFirst, h.first_eq.1, hm]
    rfl
  | cons e m =>
    obtain ⟨t', T', e₁, h', hnew⟩ := h.remove e.1
    rw [hm, find?_cons_of_pos (by simp)] at e₁
    refine ⟨t', T', ?_, h', ?_⟩
    · rw [RbRootCached.popFirst, h.first_eq.1, hm]
      exact e₁
    · have hord := h.keys_lt
      rw [hm] at hord
      rw [hnew, hm, filter_cons_of_neg (by simp), tail_cons]
      refine filter_eq_self.2 fun e' he' => ?_
      simpa using ne_of_gt (rel_of_pairwise_cons hord he')

/-- The nodes of the arena are the entries. -/
theorem mem_nodes (n : RbNode K V) : some n ∈ t.nodes → (n.key, n.value) ∈ contents T := by
  intro hn
  obtain ⟨i, hi⟩ := mem_iff_getElem?.1 hn
  have hget : t.get i = some n := by rw [RbRootCached.get, hi, join_some]
  obtain ⟨x, hx, rfl⟩ := mem_map.1 (h.filled i (by rw [hget]; rfl))
  obtain ⟨n', hn', hkey, hvalue⟩ := h.rep.enc.get_key hx
  obtain rfl : n = n' := some.inj (hget.symm.trans hn')
  rw [hkey, hvalue]
  exact mem_contents.2 ⟨x, hx, rfl⟩

theorem exists_node {e : K × V} (he : e ∈ contents T) : ∃ n, some n ∈ t.nodes ∧ n.key = e.1 ∧ n.value = e.2 := by
  obtain ⟨x, hx, rfl⟩ := mem_contents.1 he
  obtain ⟨n, hn, hkey, hvalue⟩ := h.rep.enc.get_key hx
  refine ⟨n, mem_iff_getElem?.2 ⟨x.index, ?_⟩, hkey, hvalue⟩
  rw [RbRootCached.get] at hn
  exact join_eq_some_iff.1 hn

omit h in
/-- A key occurs once. -/
theorem find_eq_of_mem {m : List (K × V)} {e : K × V} (hm : m.Pairwise fun e e' => e.1 < e'.1) (he : e ∈ m) :
    m.find? (fun e' => decide (e'.1 = e.1)) = some e := by
  induction m with
  | nil => cases he
  | cons e' m ih =>
    obtain ⟨hlt, hm⟩ := pairwise_cons.1 hm
    rcases List.mem_cons.1 he with rfl | he
    · exact find?_cons_of_pos (by simp)
    · rw [find?_cons_of_neg (by simpa using ne_of_lt (hlt e he))]
      exact ih hm he

/-- `remove_where` takes an entry that satisfies the predicate, if there is one. -/
theorem removeWhere (p : V → Bool) : ∃ t' T' r, t.removeWhere p = some (t', r) ∧ Wf t' T' ∧
      (r = none ∧ contents T' = contents T ∧ (∀ e ∈ contents T, p e.2 = false) ∨
        ∃ e ∈ contents T, p e.2 = true ∧ r = some e.2 ∧ contents T' = (contents T).filter fun e' => e'.1 ≠ e.1) := by
  cases hfind : t.findWhere p with
  | none =>
    refine ⟨t, T, none, ?_, h, .inl ⟨rfl, rfl, fun e he => ?_⟩⟩
    · rw [RbRootCached.removeWhere, hfind]
    · obtain ⟨n, hn, -, hvalue⟩ := h.exists_node he
      have := find?_eq_none.1 hfind n (mem_filterMap.2 ⟨some n, hn, rfl⟩)
      rw [← hvalue]
      simpa using this
  | some n =>
    have hmem := mem_of_find?_eq_some hfind
    obtain ⟨o, ho, rfl⟩ := mem_filterMap.1 hmem
    have hp : p n.value = true := by simpa using find?_some hfind
    obtain ⟨t', T', e₁, h', hnew⟩ := h.remove n.key
    have hentry := h.mem_nodes n ho
    have hres : ((contents T).find? fun e => decide (e.1 = n.key)) = some (n.key, n.value) :=
      find_eq_of_mem h.keys_lt hentry
    refine ⟨t', T', some n.value, ?_, h', .inr ⟨_, hentry, hp, rfl, hnew⟩⟩
    rw [RbRootCached.removeWhere, hfind]
    simp only [e₁, hres, map_some]

end Wf

/-! ## Sequences of operations -/

/-- The operations that change the tree. -/
inductive Op (K V : Type) where
  | insert (key : K) (value : V)
  | remove (key : K)
  | popFirst
  | removeWhere (p : V → Bool)

/-- Runs an operation; only removals have an answer. -/
def RbRootCached.exec (t : RbRootCached K V) : Op K V → Option (RbRootCached K V × Option V)
  | .insert key value => (t.insert key value).map fun t => (t, none)
  | .remove key => t.remove key
  | .popFirst => t.popFirst
  | .removeWhere p => t.removeWhere p

/-- Keys are inserted only if they are not present. -/
def RbRootCached.Allowed (t : RbRootCached K V) : Op K V → Prop
  | .insert key _ => ∀ i n, t.get i = some n → n.key ≠ key
  | _ => True

/-- How a finite sorted map answers an operation. A removal by a predicate takes any entry that
satisfies it. -/
def Answers (m : List (K × V)) (op : Op K V) (r : Option V) (m' : List (K × V)) : Prop :=
  match op with
  | .insert key value => r = none ∧ m' = insertEntry key value m
  | .remove key => r = (m.find? fun e => e.1 = key).map Prod.snd ∧ m' = m.filter fun e => e.1 ≠ key
  | .popFirst => r = m.head?.map Prod.snd ∧ m' = m.tail
  | .removeWhere p => r = none ∧ m' = m ∧ (∀ e ∈ m, p e.2 = false) ∨
      ∃ e ∈ m, p e.2 = true ∧ r = some e.2 ∧ m' = m.filter fun e' => e'.1 ≠ e.1

/-- One operation. -/
theorem Wf.exec (h : Wf t T) {op : Op K V} (hop : t.Allowed op) :
    ∃ t' T' r, t.exec op = some (t', r) ∧ Wf t' T' ∧ Answers (contents T) op r (contents T') := by
  cases op with
  | insert key value =>
    have hnew : ∀ z ∈ T.entries, z.key ≠ key := by
      intro z hz
      obtain ⟨n, hn, hkey, -⟩ := h.rep.enc.get_key hz
      exact hkey ▸ hop _ n hn
    obtain ⟨t', T', e, h', hcontents⟩ := h.insert hnew value
    exact ⟨t', T', none, by rw [RbRootCached.exec, e, map_some], h', rfl, hcontents⟩
  | remove key =>
    obtain ⟨t', T', e, h', hnew⟩ := h.remove key
    exact ⟨t', T', _, e, h', rfl, hnew⟩
  | popFirst =>
    obtain ⟨t', T', e, h', hnew⟩ := h.popFirst
    exact ⟨t', T', _, e, h', rfl, hnew⟩
  | removeWhere p => exact h.removeWhere p

/-- The trees that sequences of operations lead to, with the operations and their answers. -/
inductive Run : RbRootCached K V → List (Op K V × Option V) → Prop
  | new : Run .new []
  | step {t t' : RbRootCached K V} {trace : List (Op K V × Option V)} {op : Op K V} {r : Option V} :
    Run t trace → t.Allowed op → t.exec op = some (t', r) → Run t' (trace ++ [(op, r)])

/-- The sorted maps that sequences of operations and answers lead to. -/
inductive MapRun : List (K × V) → List (Op K V × Option V) → Prop
  | empty : MapRun [] []
  | step {m m' : List (K × V)} {trace : List (Op K V × Option V)} {op : Op K V} {r : Option V} :
    MapRun m trace → Answers m op r m' → MapRun m' (trace ++ [(op, r)])

theorem Wf.new : Wf (.new : RbRootCached K V) nil where
  filled _ hi := nomatch hi
  freeNodup := nodup_nil
  free i := ⟨nofun, fun h => absurd h.1 (Nat.not_lt_zero i)⟩
  leftmost := rfl
  len := rfl
  rep := ⟨trivial, rfl, nodup_nil⟩
  redBlack := ⟨rfl, trivial, 0, rfl⟩
  ordered := Pairwise.nil

/-- After every sequence of operations the arena holds a red-black search tree with its records, no
operation fails, and the answers are those of a sorted map. -/
theorem wf_of_run {trace : List (Op K V × Option V)} (h : Run t trace) :
    (∃ T, Wf t T ∧ MapRun (contents T) trace) ∧ ∀ op, t.Allowed op → (t.exec op).isSome = true := by
  have hwf : ∃ T, Wf t T ∧ MapRun (contents T) trace := by
    induction h with
    | new => exact ⟨nil, .new, .empty⟩
    | step hrun hop hexec ih =>
      obtain ⟨T, hT, hmap⟩ := ih
      obtain ⟨t₁, T₁, r₁, e₁, h₁, hans⟩ := hT.exec hop
      obtain ⟨rfl, rfl⟩ := Prod.mk.inj (some.inj (e₁.symm.trans hexec))
      exact ⟨T₁, h₁, hmap.step hans⟩
  refine ⟨hwf, fun op hop => ?_⟩
  obtain ⟨T, hT, -⟩ := hwf
  obtain ⟨t₁, T₁, r₁, e₁, -⟩ := hT.exec hop
  rw [e₁]
  rfl

theorem wf_of_run_three : ∃ t : RbRootCached Nat Nat,
    Run t [(.insert 1 10, none), (.insert 2 20, none), (.insert 3 30, none), (.popFirst, some 10)] ∧
      ((∃ T, Wf t T ∧
        MapRun (contents T) [(.insert 1 10, none), (.insert 2 20, none), (.insert 3 30, none), (.popFirst, some 10)]) ∧
        ∀ op, t.Allowed op → (t.exec op).isSome = true) := by
  have hall : ∀ (t : RbRootCached Nat Nat) (key value : Nat),
      (t.nodes.all fun o => o.all fun n => decide (n.key ≠ key)) = true → t.Allowed (.insert key value) := by
    intro t key value h i n hn
    rw [RbRootCached.get, join_eq_some_iff] at hn
    simpa using all_eq_true.1 h _ (mem_of_getElem? hn)
  have hrun : ∃ t : RbRootCached Nat Nat,
      Run t [(.insert 1 10, none), (.insert 2 20, none), (.insert 3 30, none), (.popFirst, some 10)] :=
    ⟨_, .step (.step (.step (.step .new (hall _ _ _ rfl) rfl) (hall _ _ _ rfl) rfl) (hall _ _ _ rfl) rfl) trivial rfl⟩
  obtain ⟨t, ht⟩ := hrun
  exact ⟨t, ht, wf_of_run ht⟩

end ShellCore.Sched
