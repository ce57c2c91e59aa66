import Lox.Command.Directory
import Mathlib.Data.List.Basic
import Mathlib.Data.List.Infix
import Mathlib.Tactic.Common

/-! A history that is put into a directory is found again, and nothing else changes: the directories are the same
ones, and a file at another path is read as before. -/
namespace Lox.Directory

variable {d : Directory} {name other : Text} {p q : Path}

theorem isDirectory_iff : d.isDirectory p = true ↔
    p <+: d.cwd ∨ (∃ f ∈ d.folders, p <+: f) ∨ ∃ e ∈ d.entries, p <+: e.1 ∧ p.length < e.1.length := by
  simp [isDirectory, or_assoc, List.any_eq_true]

theorem isBlocked_iff : d.isBlocked p = true ↔ ∃ e ∈ d.entries, e.1 <+: p ∧ e.1.length < p.length := by
  simp [isBlocked, List.any_eq_true]

/-- What leads to a directory is a directory. -/
theorem isDirectory_of_prefix (hpq : p <+: q) (hq : d.isDirectory q = true) : d.isDirectory p = true := by
  rw [isDirectory_iff] at hq ⊢
  rcases hq with hcwd | ⟨f, hf, hqf⟩ | ⟨e, he, hqe, hlen⟩
  · exact .inl (hpq.trans hcwd)
  · exact .inr (.inl ⟨f, hf, hpq.trans hqf⟩)
  · exact .inr (.inr ⟨e, he, hpq.trans hqe, hpq.length_le.trans_lt hlen⟩)

/-- A written path means an entry if it is not that of a directory and leads through no file. -/
theorem find_eq_ok_iff {entry : Entry} : d.find name = .ok entry ↔
    d.isDirectory (.ofText d.cwd name) = false ∧ d.isBlocked (.ofText d.cwd name) = false ∧
      wantsDirectory name = false ∧ d.entries.lookup (.ofText d.cwd name) = some entry := by
  rw [find]
  cases d.isDirectory (.ofText d.cwd name) with
  | true => simp
  | false =>
    cases d.isBlocked (.ofText d.cwd name) with
    | true => simp
    | false =>
      cases d.entries.lookup (.ofText d.cwd name) with
      | none => simp
      | some found => cases wantsDirectory name <;> simp

structure Room (d : Directory) (name : Text) : Prop where
  notDirectory : d.isDirectory (.ofText d.cwd name) = false
  unblocked : d.isBlocked (.ofText d.cwd name) = false
  plain : wantsDirectory name = false
  parent : d.isDirectory (Path.ofText d.cwd name).dropLast = true

/-- Around every file there is a directory. -/
theorem isDirectory_dropLast (hmem : ∃ e ∈ d.entries, e.1 = p) (hp : d.isDirectory p = false) :
    d.isDirectory p.dropLast = true := by
  have hne : p ≠ [] := by
    rintro rfl
    have hroot : d.isDirectory [] = true := isDirectory_iff.mpr (.inl List.nil_prefix)
    rw [hroot] at hp
    contradiction
  obtain ⟨e, he, rfl⟩ := hmem
  apply isDirectory_iff.mpr
  refine .inr (.inr ⟨e, he, List.dropLast_prefix _, ?_⟩)
  rw [List.length_dropLast]
  have := List.length_pos_iff.mpr hne
  omega

theorem mem_of_lookup {entry : Entry} {entries : List (Path × Entry)} (h : entries.lookup p = some entry) :
    (p, entry) ∈ entries := by
  obtain ⟨before, after, rfl, -⟩ := List.lookup_eq_some_iff.mp h
  exact List.mem_append_right _ List.mem_cons_self

theorem room_of_find {entry : Entry} (h : d.find name = .ok entry) : d.Room name := by
  obtain ⟨hdir, hblocked, hplain, hlookup⟩ := find_eq_ok_iff.mp h
  exact ⟨hdir, hblocked, hplain, isDirectory_dropLast ⟨_, mem_of_lookup hlookup, rfl⟩ hdir⟩

/-- A history can be opened only at a place for a file. -/
theorem room_of_openHistory {h : History} (hopen : d.openHistory name = .ok h) : d.Room name := by
  rw [openHistory] at hopen
  split at hopen
  case h_1 hfind => exact room_of_find hfind
  case h_2 hfind => exact room_of_find hfind
  case h_3 => contradiction
  case h_5 => contradiction
  case h_4 hfind =>
    split at hopen
    · contradiction
    · rename_i hparent
      split at hopen
      · contradiction
      · rename_i hplain
        rw [find] at hfind
        split at hfind
        · cases hfind
        · rename_i hdir
          split at hfind
          · cases hfind
          · rename_i hblocked
            exact ⟨by simpa using hdir, by simpa using hblocked, by simpa using hplain, by simpa using hparent⟩

@[simp]
theorem cwd_putHistory (d : Directory) (name : Text) (h : History) : (d.putHistory name h).cwd = d.cwd := rfl

section Put

variable (hroom : d.Room name) (h : History)
include hroom

/-- A history that is put into its place makes no other directories. -/
theorem isDirectory_putHistory (p : Path) : (d.putHistory name h).isDirectory p = d.isDirectory p := by
  rw [Bool.eq_iff_iff]
  constructor
  · intro hp
    rcases isDirectory_iff.mp hp with hcwd | hfolder | ⟨e, he, hpe, hlen⟩
    · exact isDirectory_iff.mpr (.inl hcwd)
    · exact isDirectory_iff.mpr (.inr (.inl hfolder))
    · rcases List.mem_cons.mp he with rfl | hold
      · -- A directory on the way to the history leads to the one that it stands in.
        apply isDirectory_of_prefix _ hroom.parent
        apply List.prefix_of_prefix_length_le hpe (List.dropLast_prefix _)
        rw [List.length_dropLast]
        exact Nat.le_sub_one_of_lt hlen
      · exact isDirectory_iff.mpr (.inr (.inr ⟨e, (List.mem_filter.mp hold).1, hpe, hlen⟩))
  · intro hp
    rcases isDirectory_iff.mp hp with hcwd | hfolder | ⟨e, he, hpe, hlen⟩
    · exact isDirectory_iff.mpr (.inl hcwd)
    · exact isDirectory_iff.mpr (.inr (.inl hfolder))
    · apply isDirectory_iff.mpr
      by_cases hsame : e.1 = .ofText d.cwd name
      · exact .inr (.inr ⟨_, List.mem_cons_self, hsame ▸ hpe, hsame ▸ hlen⟩)
      · refine .inr (.inr ⟨e, List.mem_cons_of_mem _ (List.mem_filter.mpr ⟨he, ?_⟩), hpe, hlen⟩)
        simpa using hsame

omit hroom in
/-- A history that is put into its place blocks the paths that lead through it, and no others. -/
theorem isBlocked_putHistory (p : Path) : (d.putHistory name h).isBlocked p = true ↔
    d.isBlocked p = true ∨ (Path.ofText d.cwd name <+: p ∧ (Path.ofText d.cwd name).length < p.length) := by
  rw [isBlocked_iff, isBlocked_iff]
  constructor
  · rintro ⟨e, he, hpe, hlen⟩
    rcases List.mem_cons.mp he with rfl | hold
    · exact .inr ⟨hpe, hlen⟩
    · exact .inl ⟨e, (List.mem_filter.mp hold).1, hpe, hlen⟩
  · rintro (⟨e, he, hpe, hlen⟩ | ⟨hpre, hlen⟩)
    · by_cases hsame : e.1 = .ofText d.cwd name
      · exact ⟨_, List.mem_cons_self, hsame ▸ hpe, hsame ▸ hlen⟩
      · refine ⟨e, List.mem_cons_of_mem _ (List.mem_filter.mpr ⟨he, ?_⟩), hpe, hlen⟩
        simpa using hsame
    · exact ⟨_, List.mem_cons_self, hpre, hlen⟩

omit hroom in
theorem lookup_filter_ne {entries : List (Path × Entry)} (hne : p ≠ q) :
    (entries.filter fun e => e.1 ≠ q).lookup p = entries.lookup p := by
  induction entries with
  | nil => rfl
  | cons e entries ih =>
    obtain ⟨r, entry⟩ := e
    by_cases hq : r = q
    · have hp : (p == r) = false := by simpa [hq] using hne
      rw [List.filter_cons_of_neg (by simpa using hq), ih, List.lookup_cons, hp]
    · rw [List.filter_cons_of_pos (by simpa using hq), List.lookup_cons, List.lookup_cons, ih]

/-- A file at another path stays what it was. -/
theorem find_putHistory_other (hne : Path.ofText d.cwd other ≠ .ofText d.cwd name) {entry : Entry} :
    (d.putHistory name h).find other = .ok entry ↔ d.find other = .ok entry := by
  have hlookup : (d.putHistory name h).entries.lookup (.ofText d.cwd other) =
      d.entries.lookup (.ofText d.cwd other) := by
    have hhead : (Path.ofText d.cwd other == .ofText d.cwd name) = false := by simpa using hne
    rw [putHistory, List.lookup_cons, hhead]
    exact lookup_filter_ne hne
  rw [find_eq_ok_iff, find_eq_ok_iff, isDirectory_putHistory hroom, cwd_putHistory]
  constructor
  · rintro ⟨hdir, hblocked, hplain, hfound⟩
    refine ⟨hdir, ?_, hplain, hlookup ▸ hfound⟩
    rw [← Bool.not_eq_true] at hblocked ⊢
    exact fun hold => hblocked ((isBlocked_putHistory h _).mpr (.inl hold))
  · rintro ⟨hdir, hblocked, hplain, hfound⟩
    refine ⟨hdir, ?_, hplain, hlookup.trans hfound⟩
    rw [← Bool.not_eq_true, isBlocked_putHistory]
    rintro (hold | ⟨hpre, hlen⟩)
    · rw [hblocked] at hold
      contradiction
    · -- The history would be a directory with the other file in it.
      have hwithin : d.isDirectory (.ofText d.cwd name) = true :=
        isDirectory_iff.mpr (.inr (.inr ⟨_, mem_of_lookup hfound, hpre, hlen⟩))
      rw [hroom.notDirectory] at hwithin
      contradiction

omit hroom in
/-- A text that is found is not at the path of the history. -/
theorem ofText_ne_of_find_putHistory {content : Text}
    (hfind : (d.putHistory name h).find other = .ok (.file content)) :
    Path.ofText d.cwd other ≠ .ofText d.cwd name := by
  intro hsame
  obtain ⟨-, -, -, hlookup⟩ := find_eq_ok_iff.mp hfind
  rw [cwd_putHistory, hsame, putHistory, List.lookup_cons_self] at hlookup
  cases hlookup

end Put

end Lox.Directory
