import Mathlib.Data.List.Infix
import Precompile.Route.Reference

/-!
What the keys of references tell.

A reference is read off its text again (`parse_text`). The key that a route is kept under leaves out
a mark at the end, and tells the reference as well unless the export itself ends with that mark
(`parse_storageKey_iff`). So no two references have one key, but for an export and the same export
with the mark behind it (`storageKey_eq_iff`).
-/

namespace Precompile.ModuleReference

/-- The ending that keys leave out. -/
def defaultMark : List Char := '#' :: defaultExport.toList

/-- The references that texts are read as: no `#` in the module, and some export. -/
structure IsRead (r : ModuleReference) : Prop where
  module : '#' ∉ r.module.toList
  exportName : r.exportName.toList ≠ []

/-- The name of the export ends with the mark that keys leave out. -/
def EndsMarked (r : ModuleReference) : Prop := defaultMark <:+ r.exportName.toList

/-- The other reference names the same export, but for a mark behind it that its key leaves out. -/
def Shadows (r marked : ModuleReference) : Prop :=
  marked.module = r.module ∧ marked.exportName = r.exportName ++ "#default" ∧
    r.exportName ≠ defaultExport ∧ ¬ r.EndsMarked

/-! ### Reading -/

theorem splitHash_of_not_mem {cs : List Char} (h : '#' ∉ cs) : splitHash cs = (cs, none) := by
  induction cs with
  | nil => rfl
  | cons c cs ih =>
    rw [List.mem_cons, not_or] at h
    rw [splitHash, if_neg (Ne.symm h.1), ih h.2]

theorem splitHash_append {cs : List Char} (h : '#' ∉ cs) (rest : List Char) :
    splitHash (cs ++ '#' :: rest) = (cs, some rest) := by
  induction cs with
  | nil => rfl
  | cons c cs ih =>
    rw [List.mem_cons, not_or] at h
    rw [List.cons_append, splitHash, if_neg (Ne.symm h.1), ih h.2]

example : splitHash "a#b#c".toList = (['a'], some ['b', '#', 'c']) := by
  decide +kernel

theorem not_mem_splitHash (cs : List Char) : '#' ∉ (splitHash cs).1 := by
  induction cs with
  | nil => simp [splitHash]
  | cons c cs ih =>
    rw [splitHash]
    split
    · simp
    next hc => simpa using ⟨Ne.symm hc, ih⟩

theorem isRead_parse (s : String) : (parse s).IsRead := by
  have split := not_mem_splitHash s.toList
  unfold parse
  cases h : splitHash s.toList with
  | mk before after =>
    rw [h] at split
    cases after with
    | none => exact ⟨by simpa using split, by simp [defaultExport]⟩
    | some after =>
      cases after with
      | nil => exact ⟨by simpa using split, by simp [defaultExport]⟩
      | cons c after => exact ⟨by simpa using split, by simp⟩

variable {r q : ModuleReference} {key : String}

theorem toList_text (r : ModuleReference) :
    r.text.toList = r.module.toList ++ '#' :: r.exportName.toList := by
  simp [text]

theorem eq_of_toList (module : r.module.toList = q.module.toList)
    (exportName : r.exportName.toList = q.exportName.toList) : r = q := by
  cases r
  cases q
  simpa [String.toList_inj] using And.intro module exportName

/-- A text with a `#` and something behind it is read as what stands on either side. -/
theorem parse_of_toList (read : r.IsRead)
    (h : key.toList = r.module.toList ++ '#' :: r.exportName.toList) : parse key = r := by
  obtain ⟨c, cs, hexport⟩ := List.exists_cons_of_ne_nil read.exportName
  rw [hexport] at h
  rw [parse, h, splitHash_append read.module]
  apply eq_of_toList
  · simp
  · simp [hexport]

theorem parse_text (read : r.IsRead) : parse r.text = r := parse_of_toList read r.toList_text

/-- Without an export, or with nothing behind the `#`, the default export is meant. -/
theorem parse_default {module : List Char} (h : '#' ∉ module)
    (hkey : key.toList = module ∨ key.toList = module ++ ['#']) :
    parse key = ⟨String.ofList module, defaultExport⟩ := by
  have split : splitHash key.toList = (module, none) ∨ splitHash key.toList = (module, some []) := by
    rcases hkey with hkey | hkey
    · left
      rw [hkey, splitHash_of_not_mem h]
    · right
      rw [hkey, splitHash_append h]
  rcases split with split | split <;> simp [parse, split]

/-! ### The key -/

theorem stripSuffix?_append (front ending : List Char) :
    stripSuffix? ending (front ++ ending) = some front := by
  simp [stripSuffix?]

theorem stripSuffix?_eq_none {ending cs : List Char} (h : ¬ ending <:+ cs) :
    stripSuffix? ending cs = none := by
  rw [stripSuffix?, if_neg]
  rwa [List.isSuffixOf_iff_suffix]

theorem toList_mark : "#default".toList = defaultMark := by decide

theorem storageKey_of_unmarked (h : ¬ defaultMark <:+ r.text.toList) : r.storageKey = r.text := by
  rw [storageKey, toList_mark, stripSuffix?_eq_none h]

theorem storageKey_of_marked {front : List Char} (h : r.text.toList = front ++ defaultMark) :
    r.storageKey = String.ofList front := by
  rw [storageKey, toList_mark, h, stripSuffix?_append]

/-- A text that ends with the mark names the default export, or an export that ends with the mark
itself. -/
theorem marked_cases {module exportName front : List Char} (h : '#' ∉ module)
    (marked : module ++ '#' :: exportName = front ++ defaultMark) :
    exportName = defaultExport.toList ∧ front = module ∨
      ∃ shorter, exportName = shorter ++ defaultMark ∧ front = module ++ '#' :: shorter := by
  rcases List.append_eq_append_iff.mp marked with ⟨between, hfront, rest⟩ | ⟨between, hmodule, rest⟩
  · rcases between with _ | ⟨c, shorter⟩
    · left
      simpa [defaultMark, eq_comm] using And.intro rest hfront
    · right
      rw [List.cons_append, List.cons.injEq] at rest
      exact ⟨shorter, rest.2, by rw [hfront, rest.1]⟩
  · rcases between with _ | ⟨c, between⟩
    · left
      simpa [defaultMark, eq_comm] using And.intro rest hmodule
    · -- the mark begins with a `#`, and none stands in the module
      rw [defaultMark, List.cons_append, List.cons.injEq] at rest
      simp [hmodule, ← rest.1] at h

theorem suffix_text_iff (read : r.IsRead) :
    defaultMark <:+ r.text.toList ↔ r.exportName = defaultExport ∨ r.EndsMarked := by
  rw [toList_text]
  constructor
  · rintro ⟨front, marked⟩
    rcases marked_cases read.module marked.symm with ⟨default, -⟩ | ⟨shorter, hshorter, -⟩
    · exact .inl (String.toList_inj.mp default)
    · exact .inr ⟨shorter, hshorter.symm⟩
  · rintro (default | ⟨shorter, hshorter⟩)
    · exact ⟨r.module.toList, by rw [default, defaultMark]⟩
    · exact ⟨r.module.toList ++ '#' :: shorter, by simp [← hshorter]⟩

/-- The key is the whole text, or the module alone, or it lacks the mark that the export ends
with. -/
theorem storageKey_cases (read : r.IsRead) :
    (¬ defaultMark <:+ r.text.toList ∧ r.storageKey = r.text) ∨
      (r.exportName = defaultExport ∧ r.storageKey = r.module) ∨
      ∃ shorter, r.exportName.toList = shorter ++ defaultMark ∧
        r.storageKey.toList = r.module.toList ++ '#' :: shorter := by
  by_cases h : defaultMark <:+ r.text.toList
  · right
    obtain ⟨front, hfront⟩ := h
    have marked := r.toList_text.symm.trans hfront.symm
    rw [storageKey_of_marked hfront.symm]
    rcases marked_cases read.module marked with ⟨default, rfl⟩ | ⟨shorter, hshorter, rfl⟩
    · exact .inl ⟨String.toList_inj.mp default, by simp⟩
    · exact .inr ⟨shorter, hshorter, by simp⟩
  · exact .inl ⟨h, storageKey_of_unmarked h⟩

theorem not_endsMarked_of_default (h : r.exportName = defaultExport) : ¬ r.EndsMarked := by
  intro marked
  have := marked.length_le
  rw [h, defaultMark, List.length_cons] at this
  omega

/-- The key is read as the reference, unless the export ends with the mark. -/
theorem parse_storageKey_iff (read : r.IsRead) : parse r.storageKey = r ↔ ¬ r.EndsMarked := by
  rcases storageKey_cases read with ⟨unmarked, hkey⟩ | ⟨default, hkey⟩ | ⟨shorter, hexport, hkey⟩
  · rw [suffix_text_iff read, not_or] at unmarked
    simp [hkey, parse_text read, unmarked.2]
  · have parsed := parse_default read.module (.inl (congrArg String.toList hkey))
    simp [parsed, not_endsMarked_of_default default, ← default]
  · -- the key names the shorter export, or the default one
    have marked : r.EndsMarked := ⟨shorter, hexport.symm⟩
    simp only [marked, not_true_eq_false, iff_false]
    intro parsed
    rcases shorter with _ | ⟨c, shorter⟩
    · rw [parse_default read.module (.inr hkey)] at parsed
      have default : r.exportName = defaultExport := by rw [← parsed]
      exact not_endsMarked_of_default default marked
    · have named : parse r.storageKey = ⟨r.module, String.ofList (c :: shorter)⟩ :=
        parse_of_toList ⟨read.module, by simp⟩ (by simpa using hkey)
      rw [← parsed, named] at hexport
      have := congrArg List.length hexport
      simp [defaultMark] at this

theorem text_injective (hr : r.IsRead) (hq : q.IsRead) (h : r.text = q.text) : r = q := by
  rw [← parse_text hr, h, parse_text hq]

theorem shadows_iff (hr : r.IsRead) (hq : q.IsRead) :
    r.Shadows q ↔ ¬ defaultMark <:+ r.text.toList ∧
      q.text.toList = r.text.toList ++ defaultMark := by
  rw [suffix_text_iff hr, not_or, Shadows]
  constructor
  · rintro ⟨hmodule, hexport, default, unmarked⟩
    refine ⟨⟨default, unmarked⟩, ?_⟩
    simp [toList_text, hmodule, hexport, toList_mark]
  · rintro ⟨⟨default, unmarked⟩, htext⟩
    have longer : q = ⟨r.module, r.exportName ++ "#default"⟩ := by
      refine text_injective hq ⟨hr.module, ?_⟩ ?_
      · rw [String.toList_append, toList_mark]
        simp [defaultMark]
      · rw [← String.toList_inj, htext]
        simp [toList_text, toList_mark]
    exact ⟨by rw [longer], by rw [longer], default, unmarked⟩

/-- The key of the shadowing export lacks the mark, and the key of the other one is its text. -/
theorem Shadows.storageKey_eq (hr : r.IsRead) (hq : q.IsRead) (h : r.Shadows q) :
    r.storageKey = q.storageKey := by
  obtain ⟨unmarked, htext⟩ := (shadows_iff hr hq).mp h
  simp [storageKey_of_unmarked unmarked, storageKey_of_marked htext]

theorem eq_or_shadows_of_storageKey_eq (hr : r.IsRead) (hq : q.IsRead)
    (h : r.storageKey = q.storageKey) : r = q ∨ r.Shadows q ∨ q.Shadows r := by
  by_cases hrmark : defaultMark <:+ r.text.toList <;>
    by_cases hqmark : defaultMark <:+ q.text.toList
  · obtain ⟨front, hfront⟩ := hrmark
    obtain ⟨front', hfront'⟩ := hqmark
    rw [storageKey_of_marked hfront.symm, storageKey_of_marked hfront'.symm,
      String.ofList_inj] at h
    left
    apply text_injective hr hq
    rw [← String.toList_inj, ← hfront, ← hfront', h]
  · obtain ⟨front, hfront⟩ := hrmark
    rw [storageKey_of_marked hfront.symm, storageKey_of_unmarked hqmark] at h
    right; right
    rw [shadows_iff hq hr]
    exact ⟨hqmark, by simp [← h, hfront]⟩
  · obtain ⟨front, hfront⟩ := hqmark
    rw [storageKey_of_marked hfront.symm, storageKey_of_unmarked hrmark] at h
    right; left
    rw [shadows_iff hr hq]
    exact ⟨hrmark, by simp [h, hfront]⟩
  · rw [storageKey_of_unmarked hrmark, storageKey_of_unmarked hqmark] at h
    exact .inl (text_injective hr hq h)

/-- Read again, the text of a reference gives the reference. So does its key, unless the export ends
with the mark of the default export; and two references are kept under one key only when they are
one reference or differ by that mark, behind an export that could stand without it. -/
theorem parse_storageKey (s t : String) :
    parse (parse s).text = parse s ∧
      (parse (parse s).storageKey = parse s ↔ ¬ (parse s).EndsMarked) ∧
      ((parse s).storageKey = (parse t).storageKey ↔
        parse s = parse t ∨ (parse s).Shadows (parse t) ∨ (parse t).Shadows (parse s)) := by
  have hs := isRead_parse s
  have ht := isRead_parse t
  refine ⟨parse_text hs, parse_storageKey_iff hs, eq_or_shadows_of_storageKey_eq hs ht, ?_⟩
  rintro (same | shadows | shadows)
  · rw [same]
  · exact shadows.storageKey_eq hs ht
  · exact (shadows.storageKey_eq ht hs).symm

/-- The export `a#default` and the export `a` of one module have one key, which is read as the
latter. -/
theorem storageKey_of_marked_export :
    parse "m#a#default" = ⟨"m", "a#default"⟩ ∧ parse "m#a" = ⟨"m", "a"⟩ ∧
      (parse "m#a#default").storageKey = (parse "m#a").storageKey ∧
      parse (parse "m#a#default").storageKey ≠ parse "m#a#default" := by
  decide +kernel

end Precompile.ModuleReference
