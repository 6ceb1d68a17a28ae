import FilterList.Agent
import FilterList.Proofs.Text.Joining
import FilterList.Proofs.Text.Trim
set_option autoImplicit false

/-!
# Agent comments are read back

A member is what trimming leaves of its piece of the list, cut in two at its first version word, so
writing it gives the trimmed piece again.  The pieces hold no `;`, which is why the list is divided
at the same places when it is read a second time; the blank that the writer puts behind a `;` is
trimmed off.
-/

namespace FilterList

namespace AgentMember

open Text (trim)

/-! ## One member -/

/-- A member with a name, whose version, if it has one, starts with a version word and is preceded
by none. -/
structure WellFormed (m : AgentMember) : Prop where
  named : m.name ≠ []
  divided : ∀ version, m.version = some version →
    (∃ first others, version.splitOn ' ' = first :: others ∧ isVersionWord first = true) ∧
      ∀ word ∈ m.name.splitOn ' ', isVersionWord word = false

/-- A piece is read as it is read trimmed. -/
theorem parse_congr {s t : Text} (h : trim s = trim t) : parse s = parse t := by
  simp only [parse, h]

/-- The two ways in which a piece is read: as a name alone, or cut before its first version word. -/
theorem parse_cases (t : Text) :
    parse t = ⟨trim t, none⟩ ∨
      ∃ nameWords versionWords, (trim t).splitOn ' ' = nameWords ++ versionWords ∧
        nameWords ≠ [] ∧ versionWords ≠ [] ∧ (∀ word ∈ nameWords, isVersionWord word = false) ∧
        (∀ word, versionWords.head? = some word → isVersionWord word = true) ∧
        parse t =
          ⟨List.intercalate [' '] nameWords, some (List.intercalate [' '] versionWords)⟩ := by
  let plain : Text → Bool := fun word => !isVersionWord word
  by_cases hempty : (((trim t).splitOn ' ').takeWhile plain).isEmpty = true ∨
      (((trim t).splitOn ' ').dropWhile plain).isEmpty = true
  · left
    rw [parse, if_pos (by simpa [plain] using hempty)]
  · right
    rw [not_or, List.isEmpty_iff, List.isEmpty_iff] at hempty
    refine ⟨_, _, (List.takeWhile_append_dropWhile (p := plain)).symm, hempty.1, hempty.2,
      ?_, ?_, ?_⟩
    · intro word hword
      have hplain := List.all_eq_true.mp (List.all_takeWhile (p := plain)) word hword
      simpa [plain] using hplain
    · intro word hword
      have hhead := List.head?_dropWhile_not plain ((trim t).splitOn ' ')
      rw [hword] at hhead
      simpa [plain] using hhead
    · rw [parse, if_neg (by simpa [plain] using hempty)]

/-- A member is written as its trimmed piece. -/
theorem render_parse (t : Text) : (parse t).render = trim t := by
  rcases parse_cases t with h | ⟨nameWords, versionWords, hwords, hname, hversion, -, hhead, h⟩
  · rw [h, render, List.append_nil]
  · obtain ⟨first, others, rfl⟩ := List.exists_cons_of_ne_nil hversion
    -- a version begins with a version word, so it is not empty and is written
    have hfirst : first ≠ [] := by
      rintro rfl
      exact absurd (hhead [] rfl) (by decide)
    have hwritten : (List.intercalate [' '] (first :: others)).isEmpty = false := by
      rw [List.isEmpty_eq_false_iff]
      cases others with
      | nil => rwa [List.intercalate_singleton]
      | cons second others =>
        rw [List.intercalate_cons_cons, List.append_assoc]
        exact List.append_ne_nil_of_left_ne_nil hfirst _
    have hjoined : List.intercalate [' '] ((trim t).splitOn ' ') = trim t :=
      List.intercalate_splitOn ' '
    rw [hwords, Text.intercalate_append hname hversion] at hjoined
    rw [h, render, ← hjoined]
    simp [hwritten]

/-- A written member is read back, behind white space too. -/
theorem parse_render_parse {x : Text} (hx : Text.AllWhite x) (t : Text) :
    parse (x ++ (parse t).render) = parse t := by
  refine parse_congr ?_
  rw [render_parse, Text.trim_white_append hx, Text.trim_trim]

/-- What is read of a piece is well-formed, unless the piece is blank. -/
theorem wellFormed_parse {t : Text} (h : (parse t).name ≠ []) : (parse t).WellFormed where
  named := h
  divided := by
    intro version hv
    rcases parse_cases t with
      hp | ⟨nameWords, versionWords, hwords, hname, hversion, hplain, hhead, hp⟩
    · rw [hp] at hv
      cases hv
    · have hblank : ∀ word ∈ nameWords ++ versionWords, ' ' ∉ word := by
        rw [← hwords]
        exact fun word hword => Text.not_mem_of_mem_splitOn hword
      rw [hp] at hv ⊢
      obtain rfl := Option.some.inj hv
      obtain ⟨first, others, rfl⟩ := List.exists_cons_of_ne_nil hversion
      constructor
      · refine ⟨first, others, List.splitOn_intercalate ' ' ?_ hversion, hhead first rfl⟩
        exact fun word hword => hblank word (List.mem_append_right _ hword)
      · intro word hword
        rw [List.splitOn_intercalate ' ' (fun w hw => hblank w (List.mem_append_left _ hw)) hname]
          at hword
        exact hplain word hword

end AgentMember

namespace Agent

/-! ## The whole comment -/

/-- What is read is a list of members, each read from a piece without a semicolon and named. -/
theorem exists_pieces_of_parse? {raw : Text} {a : Agent} (h : parse? raw = some a) :
    a.dialect = .common ∧ ∀ m ∈ a.members,
      ∃ piece, ';' ∉ piece ∧ m = AgentMember.parse piece ∧ m.name ≠ [] := by
  simp only [parse?, Option.bind_eq_bind, Option.bind_eq_some_iff, Option.pure_def,
    Option.some.injEq] at h
  obtain ⟨list, -, content, -, rfl⟩ := h
  refine ⟨rfl, fun m hm => ?_⟩
  obtain ⟨hmem, hname⟩ := List.mem_filter.mp hm
  obtain ⟨piece, hpiece, rfl⟩ := List.mem_map.mp hmem
  exact ⟨piece, Text.not_mem_of_mem_splitOn hpiece, rfl, by simpa using hname⟩

/-- A written agent comment is bare. -/
theorem isBare_render (a : Agent) : isBare a.render = true := by
  rw [isBare, render, Bool.and_eq_true]
  exact ⟨rfl, by rw [Text.endsWith, List.getLast?_concat]; exact beq_self_eq_true _⟩

/-- The members of a written list are the pieces between its semicolons. -/
theorem members_of_written {members : List AgentMember}
    (h : ∀ m ∈ members, ∃ piece, ';' ∉ piece ∧ m = AgentMember.parse piece ∧ m.name ≠ []) :
    (((List.intercalate [';', ' '] (members.map AgentMember.render)).splitOn ';').map
      AgentMember.parse).filter (fun m => !m.name.isEmpty) = members := by
  cases members with
  | nil => rfl
  | cons m members =>
    have hsemicolon : ∀ m' ∈ m :: members, ';' ∉ m'.render := by
      intro m' hm'
      obtain ⟨piece, hpiece, rfl, -⟩ := h m' hm'
      rw [AgentMember.render_parse]
      exact fun hc => hpiece ((Text.trim_sublist piece).subset hc)
    have hread : ∀ x, Text.AllWhite x → ∀ m' ∈ m :: members,
        AgentMember.parse (x ++ m'.render) = m' := by
      intro x hx m' hm'
      obtain ⟨piece, -, rfl, -⟩ := h m' hm'
      exact AgentMember.parse_render_parse hx piece
    have hpieces :
        (List.intercalate [';', ' '] ((m :: members).map AgentMember.render)).splitOn ';' =
          m.render :: members.map fun m' => ' ' :: m'.render := by
      rw [List.map_cons, show [';', ' '] = [';'] ++ [' '] from rfl,
        Text.intercalate_separator_append, List.splitOn_intercalate ';' _ (List.cons_ne_nil _ _),
        List.map_map]
      · rfl
      · intro piece hpiece
        rcases List.mem_cons.mp hpiece with rfl | hpiece
        · exact hsemicolon m List.mem_cons_self
        · obtain ⟨r, hr, rfl⟩ := List.mem_map.mp hpiece
          obtain ⟨m', hm', rfl⟩ := List.mem_map.mp hr
          have hm := hsemicolon m' (List.mem_cons_of_mem _ hm')
          simpa using hm
    have hfirst : AgentMember.parse m.render = m :=
      hread [] (fun _ hc => nomatch hc) m List.mem_cons_self
    have hothers : (members.map fun m' => ' ' :: m'.render).map AgentMember.parse = members := by
      rw [List.map_map, List.map_congr_left (g := id), List.map_id]
      exact fun m' hm' => hread [' '] Text.allWhite_blank m' (List.mem_cons_of_mem _ hm')
    rw [hpieces, List.map_cons, hfirst, hothers, List.filter_eq_self]
    intro m' hm'
    obtain ⟨-, -, -, hname⟩ := h m' hm'
    simpa using hname

/-- An agent comment that was read is written as a bare list and read back, and each of its members
is divided at its first version word. -/
theorem parse?_render_of_parse? {raw : Text} {a : Agent} (h : parse? raw = some a) :
    isBare a.render = true ∧ parse? a.render = some a ∧ ∀ m ∈ a.members, m.WellFormed := by
  obtain ⟨hdialect, hmembers⟩ := exists_pieces_of_parse? h
  refine ⟨isBare_render a, ?_, ?_⟩
  · have hopen : afterOpening? a.render =
        some (List.intercalate [';', ' '] (a.members.map AgentMember.render) ++ [']']) := rfl
    have hclose : Text.beforeFinal? ']'
        (List.intercalate [';', ' '] (a.members.map AgentMember.render) ++ [']']) =
        some (List.intercalate [';', ' '] (a.members.map AgentMember.render)) :=
      Text.beforeFinal?_eq_some_iff.mpr rfl
    simp only [parse?, hopen, hclose, Option.bind_eq_bind, Option.bind_some, Option.pure_def,
      members_of_written hmembers, ← hdialect]
  · intro m hm
    obtain ⟨piece, -, rfl, hname⟩ := hmembers m hm
    exact AgentMember.wellFormed_parse hname

theorem parse?_render_of_parse?_versions :
    parse? "! [ Adblock Plus  2.0 ;; 1.0 x; \u00a0uBO ]".toList = some
        ⟨.common, [⟨"Adblock Plus ".toList, some "2.0".toList⟩, ⟨"1.0 x".toList, none⟩,
          ⟨"uBO".toList, none⟩]⟩ ∧
      parse? "[Adblock Plus  2.0; 1.0 x; uBO]".toList = some
        ⟨.common, [⟨"Adblock Plus ".toList, some "2.0".toList⟩, ⟨"1.0 x".toList, none⟩,
          ⟨"uBO".toList, none⟩]⟩ := by
  have hread : parse? "! [ Adblock Plus  2.0 ;; 1.0 x; \u00a0uBO ]".toList = some
      ⟨.common, [⟨"Adblock Plus ".toList, some "2.0".toList⟩, ⟨"1.0 x".toList, none⟩,
        ⟨"uBO".toList, none⟩]⟩ := by decide +kernel
  exact ⟨hread, (parse?_render_of_parse? hread).2.1⟩

end Agent

end FilterList
