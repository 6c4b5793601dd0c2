import Mathlib
import Snpm.Library.DirTree

/-!
Directory listings in the order of their names, and the entries of a tree one by one
with their places. The entries, written down directory by directory, determine the
listing: an entry's depth tells which directory it is in.
-/
namespace DirTree

/-- What lies at a place of a tree. -/
inductive Item (F L : Type) where
  | file (content : F)
  | link (target : L)
  | dir
deriving DecidableEq

namespace Listing

variable {N F L : Type}

/-- Add an entry behind those that come before it. -/
def insertAt (before : N → Bool) (add : Listing N F L → Listing N F L) :
    Listing N F L → Listing N F L
  | .nil => add .nil
  | .file n content rest =>
      if before n then .file n content (rest.insertAt before add) else add (.file n content rest)
  | .link n target rest =>
      if before n then .link n target (rest.insertAt before add) else add (.link n target rest)
  | .dir n entries rest =>
      if before n then .dir n entries (rest.insertAt before add) else add (.dir n entries rest)

/-- Every directory in the order of its names. -/
def sorted (lt : N → N → Bool) : Listing N F L → Listing N F L
  | .nil => .nil
  | .file n content rest => (rest.sorted lt).insertAt (lt · n) (.file n content)
  | .link n target rest => (rest.sorted lt).insertAt (lt · n) (.link n target)
  | .dir n entries rest => (rest.sorted lt).insertAt (lt · n) (.dir n (entries.sorted lt))

/-- The entries of this directory with another name. -/
def without [DecidableEq N] (hidden : N) : Listing N F L → Listing N F L
  | .nil => .nil
  | .file n content rest =>
      if n = hidden then rest.without hidden else .file n content (rest.without hidden)
  | .link n target rest =>
      if n = hidden then rest.without hidden else .link n target (rest.without hidden)
  | .dir n entries rest =>
      if n = hidden then rest.without hidden else .dir n entries (rest.without hidden)

/-- The entries with their places, a directory before what is in it. -/
def items (place : List N) : Listing N F L → List (List N × Item F L)
  | .nil => []
  | .file n content rest => (place ++ [n], .file content) :: rest.items place
  | .link n target rest => (place ++ [n], .link target) :: rest.items place
  | .dir n entries rest =>
      (place ++ [n], .dir) :: (entries.items (place ++ [n]) ++ rest.items place)

section Names

variable {before : N → Bool} {add : Listing N F L → Listing N F L} {name : N}

/-- Adding an entry adds its names. -/
theorem mem_allNames_insertAt (added : List N)
    (hadd : ∀ l : Listing N F L, name ∈ (add l).allNames ↔ name ∈ added ∨ name ∈ l.allNames)
    (l : Listing N F L) :
    name ∈ (l.insertAt before add).allNames ↔ name ∈ added ∨ name ∈ l.allNames := by
  induction l with
  | nil => exact hadd .nil
  | file n content rest ih =>
      simp only [insertAt]
      split
      · simp only [allNames, List.mem_cons, ih, or_left_comm]
      · exact hadd _
  | link n target rest ih =>
      simp only [insertAt]
      split
      · simp only [allNames, List.mem_cons, ih, or_left_comm]
      · exact hadd _
  | dir n entries rest _ ih =>
      simp only [insertAt]
      split
      · simp only [allNames, List.mem_cons, List.mem_append, ih, or_left_comm]
      · exact hadd _

/-- Sorting keeps the names. -/
theorem mem_allNames_sorted (lt : N → N → Bool) (l : Listing N F L) :
    name ∈ (l.sorted lt).allNames ↔ name ∈ l.allNames := by
  induction l with
  | nil => rfl
  | file n content rest ih =>
      rw [sorted, mem_allNames_insertAt [n] (fun l => by simp [allNames]), ih]
      simp [allNames]
  | link n target rest ih =>
      rw [sorted, mem_allNames_insertAt [n] (fun l => by simp [allNames]), ih]
      simp [allNames]
  | dir n entries rest ihEntries ih =>
      rw [sorted, mem_allNames_insertAt (n :: (entries.sorted lt).allNames)
        (fun l => by simp [allNames, or_assoc]), ih]
      simp [allNames, ihEntries, or_assoc]

end Names

section Items

variable {l l' : Listing N F L} {place : List N}

theorem length_place_of_mem_items {entry : List N × Item F L} (h : entry ∈ l.items place) :
    place.length < entry.1.length := by
  induction l generalizing place with
  | nil => cases h
  | file n content rest ih =>
      cases List.mem_cons.mp h with
      | inl heq =>
          rw [heq, List.length_append]
          simp
      | inr hrest => exact ih hrest
  | link n target rest ih =>
      cases List.mem_cons.mp h with
      | inl heq =>
          rw [heq, List.length_append]
          simp
      | inr hrest => exact ih hrest
  | dir n entries rest ihEntries ih =>
      cases List.mem_cons.mp h with
      | inl heq =>
          rw [heq, List.length_append]
          simp
      | inr hmem =>
          cases List.mem_append.mp hmem with
          | inl hentries =>
              have hlength := ihEntries hentries
              rw [List.length_append] at hlength
              omega
          | inr hrest => exact ih hrest

/-- The place of an entry goes on from the directory with names of the listing. -/
theorem mem_place_of_mem_items {entry : List N × Item F L} (h : entry ∈ l.items place) :
    (∀ n ∈ place, n ∈ entry.1) ∧ ∀ n ∈ entry.1, n ∈ place ∨ n ∈ l.allNames := by
  have hhead : ∀ {n : N} {item : Item F L}, entry = (place ++ [n], item) →
      (∀ m ∈ place, m ∈ entry.1) ∧ ∀ m ∈ entry.1, m ∈ place ∨ m = n := by
    rintro n item rfl
    exact ⟨fun m hm => List.mem_append_left _ hm, fun m hm => by simpa using hm⟩
  induction l generalizing place with
  | nil => cases h
  | file n content rest ih =>
      cases List.mem_cons.mp h with
      | inl heq =>
          obtain ⟨hplace, hnames⟩ := hhead heq
          exact ⟨hplace, fun m hm => (hnames m hm).imp_right fun hm => by simp [allNames, hm]⟩
      | inr hrest =>
          obtain ⟨hplace, hnames⟩ := ih hrest hhead
          exact ⟨hplace, fun m hm => (hnames m hm).imp_right fun hm => by simp [allNames, hm]⟩
  | link n target rest ih =>
      cases List.mem_cons.mp h with
      | inl heq =>
          obtain ⟨hplace, hnames⟩ := hhead heq
          exact ⟨hplace, fun m hm => (hnames m hm).imp_right fun hm => by simp [allNames, hm]⟩
      | inr hrest =>
          obtain ⟨hplace, hnames⟩ := ih hrest hhead
          exact ⟨hplace, fun m hm => (hnames m hm).imp_right fun hm => by simp [allNames, hm]⟩
  | dir n entries rest ihEntries ih =>
      cases List.mem_cons.mp h with
      | inl heq =>
          obtain ⟨hplace, hnames⟩ := hhead heq
          exact ⟨hplace, fun m hm => (hnames m hm).imp_right fun hm => by simp [allNames, hm]⟩
      | inr hmem =>
          cases List.mem_append.mp hmem with
          | inl hentries =>
              have hbelow : ∀ {m : N} {item : Item F L}, entry = (place ++ [n] ++ [m], item) →
                  (∀ k ∈ place ++ [n], k ∈ entry.1) ∧ ∀ k ∈ entry.1, k ∈ place ++ [n] ∨ k = m := by
                rintro m item rfl
                exact ⟨fun k hk => List.mem_append_left _ hk, fun k hk => by simpa [or_assoc] using hk⟩
              obtain ⟨hplace, hnames⟩ := ihEntries hentries hbelow
              refine ⟨fun m hm => hplace m (List.mem_append_left _ hm), fun m hm => ?_⟩
              cases hnames m hm with
              | inl hm =>
                  cases List.mem_append.mp hm with
                  | inl hm => exact .inl hm
                  | inr hm => exact .inr (by simp [allNames, List.mem_singleton.mp hm])
              | inr hm => exact .inr (by simp [allNames, hm])
          | inr hrest =>
              obtain ⟨hplace, hnames⟩ := ih hrest hhead
              exact ⟨hplace, fun m hm => (hnames m hm).imp_right fun hm => by simp [allNames, hm]⟩

/-- The next entry of the same directory is the first one that is no deeper. -/
theorem head_items (entry : List N × Item F L) (h : (l.items place).head? = some entry) :
    entry.1.length = place.length + 1 := by
  cases l with
  | nil => cases h
  | file n content rest =>
      cases h
      simp
  | link n target rest =>
      cases h
      simp
  | dir n entries rest =>
      cases h
      simp

/-- Entries under a name that is left out here are left out at every depth by a test
that rejects the name. -/
theorem filter_items_without [DecidableEq N] {hidden : N} {p : List N × Item F L → Bool}
    (hp : ∀ entry, hidden ∈ entry.1 → p entry = false) :
    ((l.without hidden).items place).filter p = (l.items place).filter p := by
  have hown : ∀ {n : N} {item : Item F L}, n = hidden → ¬p (place ++ [n], item) = true := by
    rintro n item rfl
    rw [hp _ (List.mem_append_right _ List.mem_cons_self)]
    exact Bool.false_ne_true
  induction l with
  | nil => rfl
  | file n content rest ih =>
      simp only [without, items]
      split
      next heq => rw [List.filter_cons, if_neg (hown heq), ih]
      next => rw [items, List.filter_cons, List.filter_cons, ih]
  | link n target rest ih =>
      simp only [without, items]
      split
      next heq => rw [List.filter_cons, if_neg (hown heq), ih]
      next => rw [items, List.filter_cons, List.filter_cons, ih]
  | dir n entries rest _ ih =>
      simp only [without, items]
      split
      next heq =>
          have hbelow : (entries.items (place ++ [n])).filter p = [] := by
            rw [List.filter_eq_nil_iff]
            intro entry hentry
            have hmem := (mem_place_of_mem_items hentry).1 n (by simp)
            simp [hp entry (heq ▸ hmem)]
          rw [List.filter_cons, if_neg (hown heq), List.filter_append,
            hbelow, List.nil_append, ih]
      next => rw [items, List.filter_cons, List.filter_cons, List.filter_append,
          List.filter_append, ih]

theorem allNames_without [DecidableEq N] {hidden n : N} (h : n ∈ (l.without hidden).allNames) :
    n ∈ l.allNames := by
  induction l with
  | nil => exact h
  | file m content rest ih =>
      simp only [without] at h
      split at h
      next => exact List.mem_cons_of_mem _ (ih h)
      next => exact List.mem_cons.mpr ((List.mem_cons.mp h).imp_right ih)
  | link m target rest ih =>
      simp only [without] at h
      split at h
      next => exact List.mem_cons_of_mem _ (ih h)
      next => exact List.mem_cons.mpr ((List.mem_cons.mp h).imp_right ih)
  | dir m entries rest _ ih =>
      simp only [without] at h
      split at h
      next => exact List.mem_cons_of_mem _ (List.mem_append_right _ (ih h))
      next =>
          simp only [allNames, List.mem_cons, List.mem_append] at h ⊢
          exact h.imp_right fun h => h.imp_right ih

/-- A list is split in only one way where a property first fails. -/
theorem split_at_first {α : Type} {P : α → Prop} {xs ys xs' ys' : List α}
    (hxs : ∀ x ∈ xs, P x) (hxs' : ∀ x ∈ xs', P x) (hys : ∀ y, ys.head? = some y → ¬P y)
    (hys' : ∀ y, ys'.head? = some y → ¬P y) (h : xs ++ ys = xs' ++ ys') :
    xs = xs' ∧ ys = ys' := by
  induction xs generalizing xs' with
  | nil =>
      cases xs' with
      | nil => exact ⟨rfl, h⟩
      | cons x xs' =>
          rw [List.nil_append] at h
          exact absurd (hxs' x List.mem_cons_self) (hys x (by simp [h]))
  | cons x xs ih =>
      cases xs' with
      | nil =>
          rw [List.nil_append] at h
          exact absurd (hxs x List.mem_cons_self) (hys' x (by simp [← h]))
      | cons x' xs' =>
          rw [List.cons_append, List.cons_append, List.cons.injEq] at h
          obtain ⟨rfl, h⟩ := h
          obtain ⟨hleft, hright⟩ := ih (fun x hx => hxs x (List.mem_cons_of_mem _ hx))
            (fun x hx => hxs' x (List.mem_cons_of_mem _ hx)) h
          exact ⟨by rw [hleft], hright⟩

theorem items_dir_inj {entries entries' rest rest' : Listing N F L} {n : N}
    (h : entries.items (place ++ [n]) ++ rest.items place =
      entries'.items (place ++ [n]) ++ rest'.items place) :
    entries.items (place ++ [n]) = entries'.items (place ++ [n]) ∧
      rest.items place = rest'.items place := by
  have hdeep : ∀ (l : Listing N F L), ∀ entry ∈ l.items (place ++ [n]),
      place.length + 1 < entry.1.length := by
    intro l entry hentry
    have hlength := length_place_of_mem_items hentry
    rw [List.length_append] at hlength
    exact hlength
  have hflat : ∀ (l : Listing N F L) (entry : List N × Item F L),
      (l.items place).head? = some entry → ¬place.length + 1 < entry.1.length := by
    intro l entry hentry
    have hlength := head_items entry hentry
    omega
  exact split_at_first (hdeep entries) (hdeep entries') (hflat rest) (hflat rest') h

/-- The entries with their places determine the listing. -/
theorem items_injective (h : l.items place = l'.items place) : l = l' := by
  induction l generalizing l' place with
  | nil =>
      cases l' with
      | nil => rfl
      | file n content rest => cases h
      | link n target rest => cases h
      | dir n entries rest => cases h
  | file n content rest ih =>
      cases l' with
      | nil => cases h
      | file n' content' rest' =>
          simp only [items, List.cons.injEq, Prod.mk.injEq, Item.file.injEq,
            List.append_cancel_left_eq, and_true] at h
          rw [h.1.1, h.1.2, ih h.2]
      | link n' target rest' => simp [items] at h
      | dir n' entries rest' => simp [items] at h
  | link n target rest ih =>
      cases l' with
      | nil => cases h
      | file n' content rest' => simp [items] at h
      | link n' target' rest' =>
          simp only [items, List.cons.injEq, Prod.mk.injEq, Item.link.injEq,
            List.append_cancel_left_eq, and_true] at h
          rw [h.1.1, h.1.2, ih h.2]
      | dir n' entries rest' => simp [items] at h
  | dir n entries rest ihEntries ih =>
      cases l' with
      | nil => cases h
      | file n' content rest' => simp [items] at h
      | link n' target rest' => simp [items] at h
      | dir n' entries' rest' =>
          simp only [items, List.cons.injEq, Prod.mk.injEq, List.append_cancel_left_eq,
            and_true] at h
          obtain ⟨rfl, h⟩ := h
          obtain ⟨hentries, hrest⟩ := items_dir_inj h
          rw [ihEntries hentries, ih hrest]

end Items

end Listing
end DirTree
