import BlockLowering.Files
import Mathlib.Logic.Basic

/-! What is asked of files that are part of the state of a computation, and that the directory in
memory keeps to it. Reading changes nothing, nor does a write that fails. -/

namespace BlockLowering

namespace Files

variable {σ : Type}

structure Lawful (files : Files (StateM σ)) : Prop where
  read_keeps (path : String) (s : σ) : (files.read path s).2 = s
  failed_write_keeps {path text : String} {s s' : σ} {f : FileFault} :
    files.write path text s = (.error f, s') → s' = s

/-- What a path leads to. -/
def look (files : Files (StateM σ)) (s : σ) (path : String) : Except FileFault String :=
  (files.read path s).1

theorem Lawful.read_eq {files : Files (StateM σ)} (h : files.Lawful) (path : String) (s : σ) :
    files.read path s = (files.look s path, s) :=
  Prod.ext rfl (h.read_keeps path s)

/-- The same files, except that one of them has the text `text'` and not `text`. It may have more
than one path. -/
structure Exchanged (files : Files (StateM σ)) (text text' : String) (s s' : σ) : Prop where
  look (path : String) : files.look s' path = files.look s path ∨
    files.look s path = .ok text ∧ files.look s' path = .ok text'
  write (path content : String) :
    (files.write path content s').1 = (files.write path content s).1

end Files

namespace Table

variable {α : Type}

theorem keys_setEntry {name : String} {value old : α} {entries : List (String × α)}
    (h : lookup name entries = some old) :
    (setEntry name value entries).map (·.1) = entries.map (·.1) := by
  induction entries with
  | nil => cases h
  | cons e rest ih =>
    obtain ⟨k, v⟩ := e
    by_cases hk : k = name
    · simp [setEntry, hk]
    · simp only [lookup, hk, if_false] at h
      simp [setEntry, hk, ih h]

theorem keys_insert_of_get? {t : Table α} {name : String} {value old : α}
    (h : t.get? name = some old) : (t.insert name value).keys = t.keys :=
  keys_setEntry h

end Table

namespace Disk

theorem access_write (d : Disk) (path text : String) :
    access.write path text d =
      match d.write path text with
      | .ok d' => (.ok (), d')
      | .error f => (.error f, d) := by
  change (match d.write path text with | .ok d => _ | .error f => _ : StateM Disk _) d = _
  cases d.write path text <;> rfl

theorem access_lawful : access.Lawful where
  read_keeps path d := rfl
  failed_write_keeps {path text d d' f} h := by
    rw [access_write] at h
    cases hw : d.write path text with
    | ok e =>
      rw [hw] at h
      cases h
    | error g =>
      rw [hw] at h
      exact (congrArg Prod.snd h).symm

/-- The disk with another text in one of its files. -/
def edited (d : Disk) (name text : String) : Disk := ⟨d.files.insert name text⟩

section

variable {d : Disk} {name text : String} (h : d.files.get? name = some text) (text' : String)
include h

theorem isDirectory_edited (place : Place) :
    (d.edited name text').isDirectory place = d.isDirectory place := by
  cases place with
  | within parts => simp only [isDirectory, edited, Table.keys_insert_of_get? h]
  | above | beyond => rfl

theorem file?_edited (place : Place) :
    (d.edited name text').file? place = d.file? place ∨
      d.file? place = some text ∧ (d.edited name text').file? place = some text' := by
  cases place with
  | within parts =>
    by_cases hp : nameOf parts = name
    · refine .inr ?_
      simp only [file?, edited, hp, h, Table.get?_insert_self, and_self]
    · exact .inl (Table.get?_insert_of_ne _ hp _)
  | above | beyond => exact .inl rfl

theorem enter_edited (place : Place) : (d.edited name text').enter place = d.enter place := by
  have hsome : ((d.edited name text').file? place).isSome = (d.file? place).isSome := by
    rcases file?_edited h text' place with hf | ⟨hf, hf'⟩
    · rw [hf]
    · rw [hf, hf']
      rfl
  rw [enter, enter, isDirectory_edited h, hsome]

theorem follow_edited (here : Place) (parts : List String) :
    (d.edited name text').follow here parts = d.follow here parts := by
  induction parts generalizing here with
  | nil => rfl
  | cons part rest ih => simp only [follow, enter_edited h, ih]

theorem look_edited (path : String) :
    access.look (d.edited name text') path = access.look d path ∨
      access.look d path = .ok text ∧ access.look (d.edited name text') path = .ok text' := by
  change (d.edited name text').read path = d.read path ∨
    d.read path = .ok text ∧ (d.edited name text').read path = .ok text'
  unfold read
  cases split path with
  | error f => exact .inl rfl
  | ok start =>
    simp only [bind, Except.bind, follow_edited h]
    cases d.follow start.1 start.2 with
    | error f => exact .inl rfl
    | ok place =>
      simp only [isDirectory_edited h]
      by_cases hd : d.isDirectory place = true
      · simp [hd]
      rcases file?_edited h text' place with hf | ⟨hf, hf'⟩
      · simp [hf]
      · by_cases he : path.endsWith "/" = true
        · simp [hd, hf, hf', he]
        · simp [hd, hf, hf', he]

theorem write_edited (path content : String) :
    (access.write path content (d.edited name text')).1 = (access.write path content d).1 := by
  rw [access_write, access_write]
  unfold write
  cases split path with
  | error f => rfl
  | ok start =>
    simp only [bind, Except.bind, follow_edited h, enter_edited h]
    by_cases he : path.endsWith "/" = true
    · simp only [he, if_true]
      cases d.follow start.1 start.2.dropLast with
      | error f => rfl
      | ok place => cases hn : d.enter place <;> simp [hn]
    · simp only [he]
      cases d.follow start.1 start.2 with
      | error f => rfl
      | ok place =>
        simp only [isDirectory_edited h]
        by_cases hd : d.isDirectory place = true
        · simp [hd]
        · cases place <;> simp [hd]

theorem exchanged_edited : access.Exchanged text text' d (d.edited name text') :=
  ⟨look_edited h text', write_edited h text'⟩

end

end Disk

end BlockLowering
