import Sigil.CommandLine.Run

/-!
# Names, directories and files

What a written file does to the other names. A name is cut at its slashes, and cutting undoes
joining (`Path.components_intercalate`), so different places have different names
(`Disk.nameOf_inj`). A path leads into a directory there is (`Disk.isDirectory_of_resolve`), so a
file that is written makes no new directory (`Disk.isDirectory_write`), and all paths lead where
they led before. The path of the file finds the text that was written (`Disk.find_write`), and a
path that leads elsewhere finds what it found before (`Disk.find_write_of_ne`).
-/

namespace Sigil.CommandLine

/-! ### Components of names -/

namespace Path

/-- One character of a text on the way from its end: the component it is in, and those after it. -/
def cut (c : Char) (p : List Char × List (List Char)) : List Char × List (List Char) :=
  if c = '/' then ([], p.1 :: p.2) else (c :: p.1, p.2)

/-- The first component of a text and the others. -/
private def pieces (cs : List Char) : List Char × List (List Char) :=
  cs.foldr cut ([], [])

private theorem components_eq (text : String) :
    components text =
      ((pieces text.toList).1 :: (pieces text.toList).2).map String.ofList :=
  rfl

private theorem foldr_cut_of_not_mem {cs : List Char} (h : '/' ∉ cs)
    (p : List Char × List (List Char)) :
    cs.foldr cut p = (cs ++ p.1, p.2) := by
  induction cs with
  | nil => rfl
  | cons c cs ih =>
    rw [List.mem_cons, not_or] at h
    rw [List.foldr_cons, ih h.2, cut, if_neg (Ne.symm h.1), List.cons_append]

private theorem pieces_slash {a : List Char} (h : '/' ∉ a) (b : List Char) :
    pieces (a ++ '/' :: b) = (a, (pieces b).1 :: (pieces b).2) := by
  rw [pieces, List.foldr_append, List.foldr_cons, cut, if_pos rfl, foldr_cut_of_not_mem h,
    List.append_nil]
  rfl

private theorem components_of_not_mem {text : String} (h : '/' ∉ text.toList) :
    components text = [text] := by
  rw [components_eq, pieces, foldr_cut_of_not_mem h, List.append_nil, List.map_singleton,
    String.ofList_toList]

private theorem components_slash {a : String} (h : '/' ∉ a.toList) (b : String) :
    components (a ++ "/" ++ b) = a :: components b := by
  have htext : (a ++ "/" ++ b).toList = a.toList ++ '/' :: b.toList := by simp
  rw [components_eq, components_eq, htext, pieces_slash h, List.map_cons, String.ofList_toList]

/-- **Cutting undoes joining**, for components without slashes. -/
theorem components_intercalate {parts : List String} (hne : parts ≠ [])
    (h : ∀ part ∈ parts, '/' ∉ part.toList) : components ("/".intercalate parts) = parts := by
  induction parts with
  | nil => exact absurd rfl hne
  | cons part parts ih =>
    rw [List.forall_mem_cons] at h
    cases parts with
    | nil => rw [String.intercalate_singleton, components_of_not_mem h.1]
    | cons next rest =>
      rw [String.intercalate_cons_cons, components_slash h.1, ih (List.cons_ne_nil _ _) h.2]

private theorem not_mem_pieces (cs : List Char) :
    '/' ∉ (pieces cs).1 ∧ ∀ d ∈ (pieces cs).2, '/' ∉ d := by
  induction cs with
  | nil => exact ⟨List.not_mem_nil, List.forall_mem_nil _⟩
  | cons c cs ih =>
    change '/' ∉ (cut c (pieces cs)).1 ∧ ∀ d ∈ (cut c (pieces cs)).2, '/' ∉ d
    by_cases hc : c = '/'
    · rw [cut, if_pos hc]
      exact ⟨List.not_mem_nil, List.forall_mem_cons.2 ih⟩
    · rw [cut, if_neg hc]
      exact ⟨List.not_mem_cons_of_ne_of_not_mem (Ne.symm hc) ih.1, ih.2⟩

/-- Components have no slashes. -/
private theorem not_mem_of_mem_components {text part : String} (h : part ∈ components text) :
    '/' ∉ part.toList := by
  rw [components_eq] at h
  obtain ⟨cs, hcs, rfl⟩ := List.mem_map.1 h
  rw [String.toList_ofList]
  rcases List.mem_cons.1 hcs with rfl | hcs
  · exact (not_mem_pieces _).1
  · exact (not_mem_pieces _).2 cs hcs

/-- A component that stands for itself: it has no slash, is not empty and not a lone dot. -/
structure IsPart (part : String) : Prop where
  not_mem : '/' ∉ part.toList
  ne_empty : part ≠ ""
  ne_dot : part ≠ "."

theorem parts_ofString (text : String) :
    (ofString text).parts = (components text).filter fun part => part != "" && part != "." :=
  rfl

private theorem isPart_of_mem_parts {text part : String} (h : part ∈ (ofString text).parts) :
    IsPart part := by
  obtain ⟨hmem, hpart⟩ := List.mem_filter.1 h
  simp only [Bool.and_eq_true, bne_iff_ne] at hpart
  exact ⟨not_mem_of_mem_components hmem, hpart.1, hpart.2⟩

/-- The parts of a joined name. -/
theorem parts_intercalate {parts : List String} (hne : parts ≠ [])
    (h : ∀ part ∈ parts, IsPart part) : (ofString ("/".intercalate parts)).parts = parts := by
  have hcomponents := components_intercalate hne fun part hpart => (h part hpart).not_mem
  rw [parts_ofString, hcomponents, List.filter_eq_self]
  intro part hpart
  simp [(h part hpart).ne_empty, (h part hpart).ne_dot]

/-- What is written after a text without a slash belongs to its last piece. -/
private theorem pieces_append {ending : List Char} (h : '/' ∉ ending) (cs : List Char) :
    ∃ front last, (pieces cs).1 :: (pieces cs).2 = front ++ [last] ∧
      (pieces (cs ++ ending)).1 :: (pieces (cs ++ ending)).2 = front ++ [last ++ ending] := by
  induction cs with
  | nil => exact ⟨[], [], rfl, by rw [List.nil_append, pieces, foldr_cut_of_not_mem h]; simp⟩
  | cons c cs ih =>
    obtain ⟨front, last, hcs, hlonger⟩ := ih
    change ∃ front last, (cut c (pieces cs)).1 :: (cut c (pieces cs)).2 = front ++ [last] ∧
      (cut c (pieces (cs ++ ending))).1 :: (cut c (pieces (cs ++ ending))).2 =
        front ++ [last ++ ending]
    by_cases hc : c = '/'
    · rw [cut, cut, if_pos hc, if_pos hc]
      exact ⟨[] :: front, last, by rw [hcs]; rfl, by rw [hlonger]; rfl⟩
    · rw [cut, cut, if_neg hc, if_neg hc]
      -- the character goes to the first component, which may be the last one, too
      cases front with
      | nil =>
        obtain ⟨hfirst, hrest⟩ := List.cons.inj hcs
        obtain ⟨hfirst', hrest'⟩ := List.cons.inj hlonger
        exact ⟨[], c :: last, by simp [hfirst, hrest], by simp [hfirst', hrest']⟩
      | cons first front =>
        obtain ⟨hfirst, hrest⟩ := List.cons.inj hcs
        obtain ⟨hfirst', hrest'⟩ := List.cons.inj hlonger
        exact ⟨(c :: first) :: front, last, by simp [hfirst, hrest], by simp [hfirst', hrest']⟩

/-- The components of a longer name: only the last one is longer. -/
private theorem components_append (text : String) {ending : String} (h : '/' ∉ ending.toList) :
    ∃ front last, components text = front ++ [last] ∧
      components (text ++ ending) = front ++ [last ++ ending] := by
  obtain ⟨front, last, htext, hlonger⟩ := pieces_append h text.toList
  refine ⟨front.map String.ofList, String.ofList last, ?_, ?_⟩
  · rw [components_eq, htext]
    simp
  · rw [components_eq, String.toList_append, hlonger]
    simp [String.ofList_append]

/-- The name ends in the name of its file, not in a slash or in a lone dot. -/
def EndsInPart (name : String) : Prop :=
  ∀ front last, components name = front ++ [last] → last ≠ "" ∧ last ≠ "."

/-- The root is read off the slashes in front. -/
private theorem root_append (name : String) {ending : String} (h : '/' ∉ ending.toList) :
    (ofString (name ++ ending)).root = (ofString name).root := by
  unfold ofString
  rw [String.toList_append]
  dsimp only
  cases hending : ending.toList with
  | nil => rw [List.append_nil]
  | cons c cs =>
    have hc : c ≠ '/' := fun heq => h (by simp [hending, heq])
    -- at most three characters decide
    rcases name.toList with _ | ⟨first, _ | ⟨second, _ | ⟨third, rest⟩⟩⟩
    · simp [hc]
    · by_cases hfirst : first = '/' <;> simp [hfirst, hc]
    · by_cases hfirst : first = '/' <;> by_cases hsecond : second = '/' <;>
        simp [hfirst, hsecond, hc]
    · by_cases hfirst : first = '/' <;> by_cases hsecond : second = '/' <;>
        by_cases hthird : third = '/' <;> simp [hfirst, hsecond, hthird]

theorem extend_of_parts {root : String} (front : List String) (last ending : String) :
    extend ⟨root, front ++ [last]⟩ ending = ⟨root, front ++ [last ++ ending]⟩ := by
  simp [extend]

theorem parts_extend_ne {p : Path} {ending : String} (h : p.parts ≠ []) :
    (p.extend ending).parts ≠ [] := by
  obtain ⟨root, parts⟩ := p
  change parts ≠ [] at h
  rw [← List.dropLast_concat_getLast h, extend_of_parts]
  exact List.append_ne_nil_of_right_ne_nil _ (List.cons_ne_nil _ _)

/-- **The longer name names the extended path.** -/
theorem ofString_append {name ending : String} (hends : EndsInPart name)
    (hending : '/' ∉ ending.toList) (hlong : 1 < ending.length) :
    ofString (name ++ ending) = (ofString name).extend ending := by
  obtain ⟨front, last, hcomponents, hlonger⟩ := components_append name hending
  obtain ⟨hempty, hdot⟩ := hends front last hcomponents
  have hlast : last ++ ending ≠ "" ∧ last ++ ending ≠ "." := by
    have hlength : (last ++ ending).length = last.length + ending.length :=
      String.length_append last ending
    constructor
    · intro heq
      rw [heq, show "".length = 0 from rfl] at hlength
      omega
    · intro heq
      rw [heq, show ".".length = 1 from rfl] at hlength
      omega
  have hparts : (ofString name).parts =
      front.filter (fun part => part != "" && part != ".") ++ [last] := by
    rw [parts_ofString, hcomponents, List.filter_append]
    simp [hempty, hdot]
  have hparts' : (ofString (name ++ ending)).parts =
      front.filter (fun part => part != "" && part != ".") ++ [last ++ ending] := by
    rw [parts_ofString, hlonger, List.filter_append]
    simp [hlast]
  calc ofString (name ++ ending)
      = ⟨(ofString (name ++ ending)).root, (ofString (name ++ ending)).parts⟩ := rfl
    _ = extend ⟨(ofString name).root, (ofString name).parts⟩ ending := by
      rw [root_append name hending, hparts', hparts, extend_of_parts]
    _ = (ofString name).extend ending := rfl

/-- A path whose components stand for themselves. -/
def Proper (p : Path) : Prop :=
  ∀ part ∈ p.parts, IsPart part

theorem proper_ofString (text : String) : (ofString text).Proper :=
  fun _ => isPart_of_mem_parts

end Path

namespace Disk

variable {d d' : Disk} {p q : Path} {here place parts : List String}

/-! ### Names of places -/

/-- The name of a place is cut into the components of the place. -/
theorem parts_nameOf (h : ∀ part ∈ place, Path.IsPart part) :
    (Path.ofString (nameOf place)).parts = place.reverse := by
  have hname : nameOf place = "" ++ "/" ++ "/".intercalate place.reverse := by
    simp [nameOf, Path.toString]
  have hparts : (Path.ofString (nameOf place)).parts =
      (Path.ofString ("/".intercalate place.reverse)).parts := by
    rw [hname, Path.parts_ofString, Path.components_slash (by simp),
      List.filter_cons_of_neg (by simp), Path.parts_ofString]
  rw [hparts]
  cases hreverse : place.reverse with
  | nil => rfl
  | cons first rest =>
    rw [← hreverse]
    exact Path.parts_intercalate (by simp [hreverse]) fun part hpart =>
      h part (List.mem_reverse.1 hpart)

/-- **Different places have different names.** -/
theorem nameOf_inj (h : ∀ part ∈ here, Path.IsPart part) (h' : ∀ part ∈ place, Path.IsPart part) :
    nameOf here = nameOf place ↔ here = place := by
  refine ⟨fun heq => ?_, congrArg nameOf⟩
  have hparts := parts_nameOf h
  rw [heq, parts_nameOf h'] at hparts
  exact (List.reverse_inj.1 hparts).symm

/-! ### Directories -/

private theorem isDirectory_iff :
    d.isDirectory parts = true ↔
      (∃ name ∈ d.home :: d.directories, parts <+: (Path.ofString name).parts) ∨
        ∃ name ∈ d.files.keys, parts <+: (Path.ofString name).parts ∧
          parts.length < (Path.ofString name).parts.length := by
  simp [isDirectory]

theorem isDirectory_home (d : Disk) : d.isDirectory (Path.ofString d.home).parts = true :=
  isDirectory_iff.2 (.inl ⟨d.home, List.mem_cons_self, List.prefix_rfl⟩)

/-- What is above a directory is a directory. -/
private theorem isDirectory_of_isPrefix {above : List String} (h : above <+: parts)
    (hparts : d.isDirectory parts = true) : d.isDirectory above = true := by
  rw [isDirectory_iff] at hparts ⊢
  refine hparts.imp ?_ ?_
  · exact fun ⟨name, hname, hle⟩ => ⟨name, hname, h.trans hle⟩
  · exact fun ⟨name, hname, hle, hlt⟩ =>
      ⟨name, hname, h.trans hle, Nat.lt_of_le_of_lt h.length_le hlt⟩

private theorem reverse_tail_isPrefix (here : List String) :
    here.tail.reverse <+: here.reverse := by
  cases here with
  | nil => exact List.prefix_rfl
  | cons last up => exact ⟨[last], by simp⟩

/-! ### Following a path -/

/-- **What one component does**: from a directory it goes up, or down to what it names. -/
theorem follow_cons_eq_some {part : String} {rest : List String}
    (h : d.follow here (part :: rest) = some place) :
    d.isDirectory here.reverse = true ∧
      d.follow (if part = ".." then here.tail else part :: here) rest = some place := by
  rw [follow] at h
  split at h
  · exact ⟨‹_›, h⟩
  · cases h

theorem follow_append (d : Disk) (here front back : List String) :
    d.follow here (front ++ back) = (d.follow here front).bind (d.follow · back) := by
  induction front generalizing here with
  | nil => rfl
  | cons part front ih =>
    rw [List.cons_append, follow, follow]
    split
    · exact ih _
    · rfl

/-- A path leads into a directory, if it starts in one. -/
private theorem isDirectory_of_follow (hhere : d.isDirectory here.tail.reverse = true)
    (h : d.follow here parts = some place) : d.isDirectory place.tail.reverse = true := by
  induction parts generalizing here with
  | nil => exact Option.some.inj h ▸ hhere
  | cons part rest ih =>
    obtain ⟨hdir, hrest⟩ := follow_cons_eq_some h
    refine ih ?_ hrest
    split
    · exact isDirectory_of_isPrefix (reverse_tail_isPrefix _)
        (isDirectory_of_isPrefix (reverse_tail_isPrefix _) hdir)
    · exact hdir

/-- A path goes through its own components. -/
private theorem mem_of_follow (h : d.follow here parts = some place) :
    ∀ part ∈ place, part ∈ here ∨ part ∈ parts := by
  induction parts generalizing here with
  | nil => exact fun part hpart => .inl (Option.some.inj h ▸ hpart)
  | cons part rest ih =>
    intro x hx
    rcases ih (follow_cons_eq_some h).2 x hx with hx | hx
    · split at hx
      · exact .inl (List.mem_of_mem_tail hx)
      · rcases List.mem_cons.1 hx with rfl | hx
        · exact .inr List.mem_cons_self
        · exact .inl hx
    · exact .inr (List.mem_cons_of_mem _ hx)

/-- Where a file can be named, any other name can stand in its place. -/
theorem follow_sibling {front : List String} {last name : String}
    (h : d.follow here (front ++ [last]) = some place) (hname : name ≠ "..") :
    ∃ up, d.follow here (front ++ [name]) = some (name :: up) := by
  rw [follow_append] at h
  obtain ⟨up, hfront, hlast⟩ := Option.bind_eq_some_iff.1 h
  refine ⟨up, ?_⟩
  rw [follow_append, hfront, Option.bind_some, follow, if_pos (follow_cons_eq_some hlast).1,
    if_neg hname, follow]

/-- The directories decide where a path leads. -/
theorem follow_congr (h : ∀ parts, d'.isDirectory parts = d.isDirectory parts)
    (here parts : List String) : d'.follow here parts = d.follow here parts := by
  induction parts generalizing here with
  | nil => rfl
  | cons part rest ih => rw [follow, follow, h, ih]

/-- **A path leads into a directory there is.** -/
theorem isDirectory_of_resolve (h : d.resolve p = some place) :
    d.isDirectory place.tail.reverse = true := by
  refine isDirectory_of_follow ?_ h
  unfold start
  split
  · refine isDirectory_of_isPrefix (reverse_tail_isPrefix _) ?_
    rw [List.reverse_reverse]
    exact d.isDirectory_home
  · exact isDirectory_of_isPrefix List.nil_prefix d.isDirectory_home

private theorem isPart_of_resolve (hp : p.Proper) (h : d.resolve p = some place) :
    ∀ part ∈ place, Path.IsPart part := by
  intro part hpart
  rcases mem_of_follow h part hpart with hpart | hpart
  · unfold start at hpart
    split at hpart
    · exact Path.isPart_of_mem_parts (List.mem_reverse.1 hpart)
    · cases hpart
  · exact hp part hpart

/-! ### Writing -/

private theorem write_eq (h : d.resolve p = some place) (text : String) :
    d.write p text = { d with files := d.files.insert (nameOf place) text } := by
  rw [write, h]

private theorem keys_insert_iff {files : Table String} {name text key : String} :
    key ∈ (files.insert name text).keys ↔ key ∈ files.keys ∨ key = name := by
  have hkeys := Table.keys_put name text files.entries
  change key ∈ (Table.put name text files.entries).map Prod.fst ↔ _
  rw [hkeys]
  split
  · rename_i hmem
    exact ⟨.inl, fun h => h.elim id fun heq => heq ▸ hmem⟩
  · exact List.mem_append.trans (or_congr_right List.mem_singleton)

/-- **A file that is written makes no new directory.** -/
theorem isDirectory_write (hp : p.Proper) (text : String) (parts : List String) :
    (d.write p text).isDirectory parts = d.isDirectory parts := by
  cases hplace : d.resolve p with
  | none => rw [write, hplace]
  | some place =>
    rw [write_eq hplace, Bool.eq_iff_iff]
    constructor
    · intro h
      rw [isDirectory_iff] at h
      rcases h with h | ⟨key, hkey, hle, hlt⟩
      · exact isDirectory_iff.2 (.inl h)
      rcases keys_insert_iff.1 hkey with hkey | rfl
      · exact isDirectory_iff.2 (.inr ⟨key, hkey, hle, hlt⟩)
      -- a directory above the file is the one that the file is in, or above that one
      rw [parts_nameOf (isPart_of_resolve hp hplace)] at hle hlt
      refine isDirectory_of_isPrefix ?_ (isDirectory_of_resolve hplace)
      cases place with
      | nil => cases hlt
      | cons last up =>
        rw [List.reverse_cons] at hle
        exact (List.prefix_concat_iff.1 hle).resolve_left fun heq => by simp [heq] at hlt
    · rw [isDirectory_iff, isDirectory_iff]
      exact .imp_right fun ⟨key, hkey, hparts⟩ => ⟨key, keys_insert_iff.2 (.inl hkey), hparts⟩

private theorem resolve_write (hp : p.Proper) (text : String) (q : Path) :
    (d.write p text).resolve q = d.resolve q := by
  have hhome : (d.write p text).home = d.home := by
    unfold write
    split <;> rfl
  unfold resolve start
  rw [hhome, follow_congr (isDirectory_write hp text)]

/-- **A path finds the text that was written to it.** -/
theorem find_write (hp : p.Proper) (h : d.resolve p = some place) (text : String) :
    (d.write p text).find p = .file text := by
  have hget : (d.write p text).files.get? (nameOf place) = some text := by
    rw [write_eq h]
    simp [Table.get?_insert]
  simp only [find, resolve_write hp, h, hget]

/-- **A path that leads elsewhere finds what it found before.** -/
theorem find_write_of_ne (hp : p.Proper) (hq : q.Proper) (h : d.resolve q ≠ d.resolve p)
    (text : String) : (d.write p text).find q = d.find q := by
  cases hplace : d.resolve p with
  | none => rw [write, hplace]
  | some place =>
    unfold find
    rw [resolve_write hp]
    cases hfound : d.resolve q with
    | none => rfl
    | some found =>
      have hne : nameOf found ≠ nameOf place := by
        rw [Ne, nameOf_inj (isPart_of_resolve hq hfound) (isPart_of_resolve hp hplace)]
        rintro rfl
        exact h (hfound.trans hplace.symm)
      have hget : (d.write p text).files.get? (nameOf found) = d.files.get? (nameOf found) := by
        rw [write_eq hplace]
        simp [Table.get?_insert, hne]
      simp only [hget, isDirectory_write hp]

/-- A path that finds a file leads to it. -/
theorem exists_resolve_of_find {text : String} (h : d.find p = .file text) :
    ∃ place, d.resolve p = some place := by
  unfold find at h
  split at h
  · cases h
  · exact ⟨_, ‹_›⟩

end Disk

end Sigil.CommandLine
