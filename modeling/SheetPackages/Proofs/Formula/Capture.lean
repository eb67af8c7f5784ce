import SheetPackages.Command.Alias
import SheetPackages.Proofs.Formula.Merging

/-!
# Captured names

A renamed name is captured when the new text binds it, or takes it for the word of a binding form
or for a part of another token. The renamer looks at the old names only, so this depends on the new
ones: nothing is captured just if no new name is that of a binding form before a parenthesis, none
is bound where it is put, and none is drawn into a number before it.
-/

namespace SheetPackages.Formula

variable {m : RenameMap} {formula : String} {g : Token → Token}

/-! ## Trees with other tokens -/

open Node (mapNodes mapSlices)

/-- The frame with `g` applied to all its tokens. -/
def Frame.map (g : Token → Token) (f : Frame) : Frame :=
  ⟨g f.name, mapSlices g f.slices, f.index⟩

theorem Frame.length_slices_map (f : Frame) : (f.map g).slices.length = f.slices.length := by
  rw [map, Node.mapSlices_eq_map, List.length_map]

def Site.map (g : Token → Token) (s : Site) : Site :=
  ⟨g s.token, s.callee, s.frames.map (Frame.map g)⟩

theorem sitesIn_mapNodes {nodes : List Node} {around : List Frame}
    (h : ∀ node ∈ nodes, (node.map g).sites (around.map (Frame.map g)) =
      (node.sites around).map (Site.map g)) :
    sitesIn (around.map (Frame.map g)) (mapNodes g nodes) =
      (sitesIn around nodes).map (Site.map g) := by
  induction nodes with
  | nil => rfl
  | cons node rest ih =>
    obtain ⟨hnode, hrest⟩ := List.forall_mem_cons.mp h
    rw [mapNodes, sitesIn, sitesIn, List.map_append, hnode, ih hrest]

theorem sitesInSlices_mapSlices {slices : List (List Node)} {around : List Frame}
    (h : ∀ slice ∈ slices, ∀ node ∈ slice, ∀ around,
      (node.map g).sites (around.map (Frame.map g)) = (node.sites around).map (Site.map g))
    (name : Token) (all : List (List Node)) (index : Nat) :
    sitesInSlices (around.map (Frame.map g)) (g name) (mapSlices g all) index (mapSlices g slices) =
      (sitesInSlices around name all index slices).map (Site.map g) := by
  induction slices generalizing index with
  | nil => rfl
  | cons slice rest ih =>
    obtain ⟨hslice, hrest⟩ := List.forall_mem_cons.mp h
    have hframe : (⟨g name, mapSlices g all, index⟩ : Frame) :: around.map (Frame.map g) =
        ((⟨name, all, index⟩ : Frame) :: around).map (Frame.map g) := rfl
    rw [mapSlices, sitesInSlices, sitesInSlices, List.map_append, ih hrest, hframe,
      sitesIn_mapNodes fun node hnode ↦ hslice node hnode _]

theorem Node.sites_map (node : Node) : ∀ around,
    (node.map g).sites (around.map (Frame.map g)) = (node.sites around).map (Site.map g) := by
  induction node using Node.induct with
  | hleaf t => exact fun _ ↦ rfl
  | hcall name space opening slices closing ih =>
    intro around
    rw [Node.map, Node.sites, Node.sites, sitesInSlices_mapSlices ih]
    cases closing <;> simp [Site.map, Function.comp_def]

/-- The sites of a tree with other tokens are its sites with these tokens. -/
theorem sitesIn_nil_mapNodes (g : Token → Token) (nodes : List Node) :
    sitesIn [] (mapNodes g nodes) = (sitesIn [] nodes).map (Site.map g) :=
  @sitesIn_mapNodes g nodes [] fun node _ ↦ node.sites_map []

/-! ## Frames around sites -/

variable {sites : List Site} {s : Site} {f : Frame} {around : List Frame}

theorem mem_sitesIn_iff {nodes : List Node} :
    s ∈ sitesIn around nodes ↔ ∃ node ∈ nodes, s ∈ node.sites around := by
  induction nodes with
  | nil => simp [sitesIn]
  | cons node rest ih => rw [sitesIn, List.mem_append, ih, List.exists_mem_cons_iff]

theorem mem_sitesInSlices_iff {name : Token} {all slices : List (List Node)} {index : Nat} :
    s ∈ sitesInSlices around name all index slices ↔
      ∃ i slice, slices[i]? = some slice ∧
        s ∈ sitesIn (⟨name, all, index + i⟩ :: around) slice := by
  induction slices generalizing index with
  | nil => simp [sitesInSlices]
  | cons slice rest ih =>
    rw [sitesInSlices, List.mem_append, ih]
    constructor
    · rintro (hs | ⟨i, other, hother, hs⟩)
      · exact ⟨0, slice, rfl, hs⟩
      · exact ⟨i + 1, other, hother, by rwa [Nat.add_assoc, Nat.add_comm 1] at hs⟩
    · rintro ⟨i, other, hother, hs⟩
      cases i with
      | zero =>
        obtain rfl : slice = other := Option.some.inj hother
        exact .inl hs
      | succ i => exact .inr ⟨i, other, hother, by rwa [Nat.add_assoc, Nat.add_comm 1]⟩

/-- The name of the call of a frame and all that stands in its slices are among some sites. -/
structure Frame.Among (f : Frame) (sites : List Site) : Prop where
  name : ∃ s ∈ sites, s.token = f.name ∧ s.callee = true
  slices : ∀ i slice, f.slices[i]? = some slice → ∀ t ∈ tokensOf slice,
    ∃ s ∈ sites, s.token = t ∧ ⟨f.name, f.slices, i⟩ ∈ s.frames

theorem Frame.Among.mono {more : List Site} (h : f.Among sites) (hsubset : sites ⊆ more) :
    f.Among more where
  name := by
    obtain ⟨s, hs, hname⟩ := h.name
    exact ⟨s, hsubset hs, hname⟩
  slices i slice hslice t ht := by
    obtain ⟨s, hs, htoken⟩ := h.slices i slice hslice t ht
    exact ⟨s, hsubset hs, htoken⟩

/-- The frames of a call are among its sites. -/
theorem among_sites_call (name : Token) (space : List Token) (opening : Token)
    (slices : List (List Node)) (closing : Option Token) (around : List Frame) (index : Nat) :
    Frame.Among ⟨name, slices, index⟩
      ((Node.call name space opening slices closing).sites around) where
  name := ⟨⟨name, true, around⟩, by simp [Node.sites], rfl, rfl⟩
  slices i slice hslice t ht := by
    rw [← map_token_sitesIn_eq (⟨name, slices, i⟩ :: around)] at ht
    obtain ⟨s, hs, rfl⟩ := List.mem_map.mp ht
    have hframe := frames_of_mem_sitesIn (f := ⟨name, slices, i⟩)
      (fun node _ ↦ node.frames_of_mem_sites _ _ List.mem_cons_self) s hs
    have hslices : s ∈ sitesInSlices around name slices 0 slices :=
      mem_sitesInSlices_iff.mpr ⟨i, slice, hslice, by rwa [Nat.zero_add]⟩
    exact ⟨s, by simp [Node.sites, hslices], rfl, hframe⟩

/-- Every frame of a site is one of those around its node or belongs to a call in the node. -/
theorem Node.among_of_mem_sites (node : Node) : ∀ around, ∀ s ∈ node.sites around,
    ∀ f ∈ s.frames, f ∈ around ∨ f.Among (node.sites around) := by
  induction node using Node.induct with
  | hleaf t =>
    intro around s hs f hf
    rw [List.mem_singleton.mp hs] at hf
    exact .inl hf
  | hcall name space opening slices closing ih =>
    intro around s hs f hf
    rw [Node.sites] at hs
    simp only [List.cons_append, List.mem_cons, List.mem_append, List.mem_map] at hs
    rcases hs with rfl | (⟨t, _, rfl⟩ | rfl | hs) | ⟨t, _, rfl⟩
    · exact .inl hf
    · exact .inl hf
    · exact .inl hf
    · obtain ⟨i, slice, hslice, hs⟩ := mem_sitesInSlices_iff.mp hs
      obtain ⟨node, hnode, hs⟩ := mem_sitesIn_iff.mp hs
      rcases ih slice (List.mem_of_getElem? hslice) node hnode _ s hs f hf with hf | hamong
      · rcases List.mem_cons.mp hf with rfl | hf
        · exact .inr (among_sites_call ..)
        · exact .inl hf
      · refine .inr (hamong.mono fun other hother ↦ ?_)
        have hslices : other ∈ sitesInSlices around name slices 0 slices :=
          mem_sitesInSlices_iff.mpr ⟨i, slice, hslice, mem_sitesIn_iff.mpr ⟨node, hnode, hother⟩⟩
        simp [Node.sites, hslices]
    · exact .inl hf

theorem among_of_mem_sitesOf (hs : s ∈ sitesOf formula) (hf : f ∈ s.frames) :
    f.Among (sitesOf formula) := by
  obtain ⟨node, hnode, hs⟩ := mem_sitesIn_iff.mp hs
  rcases node.among_of_mem_sites [] s hs f hf with hf | hamong
  · cases hf
  · exact hamong.mono fun other hother ↦ mem_sitesIn_iff.mpr ⟨node, hnode, hother⟩

/-! ## Frames of the renamed text -/

theorem CallForm.of_congr {t u : Token} (h : t.text = u.text) : CallForm.of t = CallForm.of u := by
  rw [CallForm.of, CallForm.of, isNamed, isNamed, isNamed, isNamed, h]

theorem declaredName?_mapNodes {slice : List Node} (hkind : ∀ t, (g t).kind = t.kind)
    (htext : ∀ t ∈ tokensOf slice, (g t).text = t.text) :
    declaredName? (mapNodes g slice) = declaredName? slice := by
  induction slice with
  | nil => rfl
  | cons node rest ih =>
    rw [tokensOf_cons] at htext
    obtain ⟨hnode, hrest⟩ := List.forall_mem_append.mp htext
    have hbehind := ih hrest
    rw [declaredName?, declaredName?] at hbehind
    rw [mapNodes, declaredName?, declaredName?, List.findSome?_cons, List.findSome?_cons, hbehind]
    cases node with
    | leaf t => simp only [Node.map, hkind, hnode t (by simp)]
    | call => rfl

/-- The new tokens `g` are those of the sites of the formula, in their new texts. -/
structure Spells (g : Token → Token) (m : RenameMap) (formula : String) : Prop where
  kind : ∀ t, (g t).kind = t.kind
  text : ∀ s ∈ sitesOf formula, (g s.token).text = s.textUnder m

/-- No renamed name of a call is that of a binding form. -/
def PlainCalls (m : RenameMap) (formula : String) : Prop :=
  ∀ s ∈ sitesOf formula, s.Renamed m → s.callee = true → CallForm.of (s.tokenUnder m) = .ordinary

namespace Spells

variable (h : Spells g m formula)

include h

theorem form_map (hplain : PlainCalls m formula) (hf : f.Among (sitesOf formula)) :
    (f.map g).form = f.form := by
  obtain ⟨s, hs, hname, hcallee⟩ := hf.name
  have htext := h.text s hs
  rw [Frame.form, Frame.form, Frame.map, ← hname]
  by_cases hrenamed : s.Renamed m
  · have hold : CallForm.of s.token = .ordinary := by
      by_contra hform
      exact hrenamed.2.2.1 ⟨hcallee, hform⟩
    rw [hold, ← hplain s hs hrenamed hcallee]
    exact CallForm.of_congr htext
  · rw [Site.textUnder_of_not_renamed hrenamed] at htext
    exact CallForm.of_congr htext

theorem declares_map (hplain : PlainCalls m formula) (hf : f.Among (sitesOf formula)) (i : Nat) :
    (f.map g).Declares i ↔ f.Declares i := by
  rw [Frame.Declares, Frame.Declares, h.form_map hplain hf, Frame.length_slices_map]

theorem reaches_map (hplain : PlainCalls m formula) (hf : f.Among (sitesOf formula)) (i : Nat) :
    (f.map g).Reaches i ↔ f.Reaches i := by
  rw [Frame.Reaches, Frame.Reaches, h.form_map hplain hf, Frame.length_slices_map]
  exact Iff.rfl

/-- Declarations are not renamed. -/
theorem declared?_map (hf : f.Among (sitesOf formula)) {i : Nat} (hdeclares : f.Declares i) :
    (f.map g).declared? i = f.declared? i := by
  rw [Frame.declared?, Frame.declared?, Frame.map, Node.mapSlices_eq_map, List.getElem?_map]
  cases hslice : f.slices[i]? with
  | none => rfl
  | some slice =>
    refine declaredName?_mapNodes h.kind fun t ht ↦ ?_
    obtain ⟨s, hs, rfl, hframe⟩ := hf.slices i slice hslice t ht
    rw [h.text s hs, Site.textUnder_of_declares hframe hdeclares]

theorem binds_map (hplain : PlainCalls m formula) (hf : f.Among (sitesOf formula)) (name : String) :
    (f.map g).Binds name ↔ f.Binds name := by
  rw [Frame.Binds, Frame.Binds, Frame.length_slices_map]
  refine exists_congr fun i ↦ and_congr_right fun _ ↦ ?_
  rw [h.declares_map hplain hf, h.reaches_map hplain hf]
  refine and_congr_right fun hdeclares ↦ ?_
  rw [h.declared?_map hf hdeclares]

/-- A renamed name is free in the new text just if no frame of the old one binds its new name. -/
theorem free_map_iff (hplain : PlainCalls m formula) (hs : s ∈ sitesOf formula)
    (hrenamed : s.Renamed m) :
    (s.map g).Free ↔ ∀ f ∈ s.frames, ¬f.Binds (s.textUnder m) := by
  have hframe : ∀ f ∈ s.frames,
      (¬(f.map g).Declares (f.map g).index ∧ ¬(f.map g).Binds (s.map g).token.text ↔
        ¬f.Binds (s.textUnder m)) := by
    intro f hf
    have hamong := among_of_mem_sitesOf hs hf
    have htext : (s.map g).token.text = s.textUnder m := h.text s hs
    have hindex : (f.map g).index = f.index := rfl
    rw [htext, hindex, h.declares_map hplain hamong, h.binds_map hplain hamong]
    exact and_iff_right (hrenamed.2.2.2 f hf).1
  rw [Site.Free, Site.map, List.forall_mem_map]
  exact forall₂_congr hframe

theorem isFormWord_map_iff (hs : s ∈ sitesOf formula) :
    (s.map g).IsFormWord ↔ s.callee = true ∧ CallForm.of (s.tokenUnder m) ≠ .ordinary := by
  have htext : (s.map g).token.text = (s.tokenUnder m).text := h.text s hs
  rw [Site.IsFormWord, CallForm.of_congr htext]
  exact Iff.rfl

end Spells

/-! ## Places in the renamed text -/

theorem start_of_tokensFrom_append {place : Nat} {chars : List Char} {before behind : List Token}
    {t : Token} (h : tokensFrom place chars = before ++ t :: behind) :
    t.start = place + byteLength (charsOf before) := by
  induction before generalizing place chars with
  | nil =>
    cases chars with
    | nil =>
      rw [tokensFrom] at h
      cases h
    | cons c rest =>
      rw [tokensFrom_cons] at h
      rw [← (List.cons.inj h).1]
      rfl
  | cons first rest ih =>
    cases chars with
    | nil =>
      rw [tokensFrom] at h
      cases h
    | cons c more =>
      rw [tokensFrom_cons] at h
      obtain ⟨hfirst, hrest⟩ := List.cons.inj h
      rw [ih hrest, charsOf_cons, byteLength_append, ← hfirst, String.toList_ofList, Nat.add_assoc]

/-- No two tokens of a text begin at the same place. -/
theorem nodup_start_tokensFrom (place : Nat) (chars : List Char) :
    ((tokensFrom place chars).map Token.start).Nodup := by
  induction chars using tokenwise generalizing place with
  | nil =>
    rw [tokensFrom]
    exact List.nodup_nil
  | cons c rest ih =>
    rw [tokensFrom_cons, List.map_cons, List.nodup_cons]
    refine ⟨fun hmem ↦ ?_, ih _⟩
    obtain ⟨u, hu, hstart⟩ := List.mem_map.mp hmem
    have hpos := byteLength_pos c (rest.take (rule c rest).2)
    have hle := le_start_of_mem_tokensFrom hu
    simp only at hstart
    omega

/-- Different elements can be sent to any others by one function. -/
theorem exists_map_eq {α : Type} {R : α → α → Prop} {old new : List α} (hnodup : old.Nodup)
    (h : List.Forall₂ R old new) (hrefl : ∀ a, R a a) :
    ∃ g : α → α, new = old.map g ∧ ∀ a, R a (g a) := by
  classical
  induction h with
  | nil => exact ⟨id, rfl, hrefl⟩
  | @cons a b old new hab _ ih =>
    obtain ⟨hfresh, hrest⟩ := List.nodup_cons.mp hnodup
    obtain ⟨g, rfl, hg⟩ := ih hrest
    refine ⟨Function.update g a b, ?_, fun c ↦ ?_⟩
    · rw [List.map_cons, Function.update_self]
      congr 1
      refine List.map_congr_left fun c hc ↦ (Function.update_of_ne ?_ _ _).symm
      rintro rfl
      exact hfresh hc
    · by_cases hc : c = a
      · rw [hc, Function.update_self]
        exact hab
      · rw [Function.update_of_ne hc]
        exact hg c

theorem toList_rename (m : RenameMap) (formula : String) :
    (rename m formula).toList = charsUnder m (sitesOf formula) := by
  rw [rename_eq_join_textUnder, ← map_text_tokenUnder, ← textOf, toList_textOf, charsUnder]

theorem utf8ByteSize_join (m : RenameMap) (sites : List Site) :
    (String.join (sites.map (Site.textUnder m))).utf8ByteSize =
      byteLength (charsUnder m sites) := by
  rw [← map_text_tokenUnder, ← textOf, ← utf8ByteSize_ofList, charsUnder, ← toList_textOf,
    String.ofList_toList]

/-- Where numbers end as before, the sites of the renamed text are those of the formula with other
tokens. -/
theorem exists_spells (hvalid : ∀ new ∈ m.values, isIdentifier new.toList = true)
    (hstops : Stops m (sitesOf formula)) : ∃ g, Spells g m formula ∧
      sitesOf (rename m formula) = (sitesOf formula).map (Site.map g) := by
  have hsites : (sitesOf formula).map Site.token = tokensFrom 0 formula.toList :=
    map_token_sitesOf formula
  have hunplaced : (tokenize (rename m formula)).map Token.unplaced =
      (sitesOf formula).map fun s ↦ (s.tokenUnder m).unplaced := by
    rw [tokenize, toList_rename]
    exact tokensFrom_charsUnder hvalid hsites hstops 0
  have hkinds : (tokenize formula).map Token.kind =
      (tokenize (rename m formula)).map Token.kind := by
    have hmap := congrArg (List.map Token.kind) hunplaced
    rw [List.map_map, List.map_map] at hmap
    rw [← map_token_sitesOf, List.map_map]
    exact hmap.symm
  have htexts : (tokenize (rename m formula)).map Token.text =
      (sitesOf formula).map (Site.textUnder m) := by
    have hmap := congrArg (List.map Token.text) hunplaced
    rw [List.map_map, List.map_map] at hmap
    exact hmap
  have hnodup : (tokenize formula).Nodup := (nodup_start_tokensFrom 0 formula.toList).of_map
  have hforall : List.Forall₂ (fun t u : Token ↦ u.kind = t.kind) (tokenize formula)
      (tokenize (rename m formula)) := by
    rw [← List.forall₂_eq_eq_eq, List.forall₂_map_left_iff, List.forall₂_map_right_iff] at hkinds
    exact hkinds.imp fun _ _ ↦ Eq.symm
  obtain ⟨g, hg, hkind⟩ := exists_map_eq hnodup hforall fun _ ↦ rfl
  refine ⟨g, ⟨hkind, fun s hs ↦ ?_⟩, ?_⟩
  · rw [hg, ← map_token_sitesOf, List.map_map, List.map_map] at htexts
    exact List.map_inj_left.mp htexts s hs
  · calc
      sitesOf (rename m formula) = sitesIn [] (ofTokens ((tokenize formula).map g)) := by
        rw [sitesOf, parse, hg]
      _ = (sitesOf formula).map (Site.map g) := by
        rw [ofTokens_map hkind, sitesIn_nil_mapNodes]
        rfl

/-! ## Capture -/

/-- Every renamed name is read again as an identifier at its place, which nothing around it binds
and which is not the word of a binding form. -/
def Uncaptured (m : RenameMap) (formula : String) : Prop :=
  ∀ before s behind, sitesOf formula = before ++ s :: behind → s.Renamed m →
    ∃ u ∈ sitesOf (rename m formula),
      u.token.start = (String.join (before.map (Site.textUnder m))).utf8ByteSize ∧
        u.token.kind = .identifier ∧ u.token.text = s.textUnder m ∧ u.Free ∧ ¬u.IsFormWord

/-- The new names keep away from binding forms, from the names that are bound where they are put,
and from numbers before them. -/
structure Clear (m : RenameMap) (formula : String) : Prop where
  words : PlainCalls m formula
  scopes : ∀ s ∈ sitesOf formula, s.Renamed m → ∀ f ∈ s.frames, ¬f.Binds (s.textUnder m)
  numbers : ∀ p s behind, p :: s :: behind <:+ sitesOf formula → s.Renamed m →
    StopsBefore m p (s :: behind)

/-- The places of the renamed names in the new text. -/
theorem Spells.start_map (h : Spells g m formula)
    (hsites : sitesOf (rename m formula) = (sitesOf formula).map (Site.map g))
    {before behind : List Site} (hsplit : sitesOf formula = before ++ s :: behind) :
    (s.map g).token.start = (String.join (before.map (Site.textUnder m))).utf8ByteSize := by
  have htokens : tokenize (rename m formula) =
      (before.map fun p ↦ g p.token) ++ g s.token :: behind.map fun p ↦ g p.token := by
    rw [← map_token_sitesOf, hsites, hsplit]
    simp [Site.map, Function.comp_def]
  have hbefore : charsOf (before.map fun p ↦ g p.token) = charsUnder m before := by
    rw [charsOf, charsUnder, charsOf, List.flatMap_map, List.flatMap_map]
    refine List.flatMap_congr fun p hp ↦ ?_
    rw [h.text p (by simp [hsplit, hp])]
    rfl
  rw [utf8ByteSize_join, ← hbefore, ← Nat.zero_add (byteLength _)]
  exact start_of_tokensFrom_append htokens

theorem uncaptured_of_clear (hvalid : ∀ new ∈ m.values, isIdentifier new.toList = true)
    (h : Clear m formula) : Uncaptured m formula := by
  intro before s behind hsplit hrenamed
  have hstops := stops_of_renamed hvalid (map_token_sitesOf formula) h.numbers
  obtain ⟨g, hspells, hsites⟩ := exists_spells hvalid hstops
  have hs : s ∈ sitesOf formula := by simp [hsplit]
  refine ⟨s.map g, ?_, hspells.start_map hsites hsplit, ?_, hspells.text s hs, ?_, ?_⟩
  · rw [hsites]
    exact List.mem_map_of_mem hs
  · rw [← hrenamed.1]
    exact hspells.kind s.token
  · exact (hspells.free_map_iff h.words hs hrenamed).mpr (h.scopes s hs hrenamed)
  · rw [hspells.isFormWord_map_iff hs]
    exact fun hword ↦ hword.2 (h.words s hs hrenamed hword.1)

theorem eq_of_start_eq {u : Site} (hs : s ∈ sitesOf formula) (hu : u ∈ sitesOf formula)
    (h : s.token.start = u.token.start) : s = u := by
  have hnodup : ((sitesOf formula).map fun s ↦ s.token.start).Nodup := by
    have hstarts := nodup_start_tokensFrom 0 formula.toList
    rwa [← tokenize, ← map_token_sitesOf, List.map_map] at hstarts
  exact List.inj_on_of_nodup_map hnodup hs hu h

theorem clear_of_uncaptured (hvalid : ∀ new ∈ m.values, isIdentifier new.toList = true)
    (h : Uncaptured m formula) : Clear m formula := by
  have hstops : Stops m (sitesOf formula) := by
    refine stops_of_starts hvalid (map_token_sitesOf formula) 0 fun before s behind hsplit hs ↦ ?_
    obtain ⟨u, hu, hstart, -⟩ := h before s behind hsplit hs
    have htoken : u.token ∈ tokenize (rename m formula) := by
      rw [← map_token_sitesOf]
      exact List.mem_map_of_mem hu
    rw [tokenize, toList_rename] at htoken
    exact ⟨u.token, htoken, by rw [hstart, utf8ByteSize_join, Nat.zero_add]⟩
  obtain ⟨g, hspells, hsites⟩ := exists_spells hvalid hstops
  have hkept : ∀ s ∈ sitesOf formula, s.Renamed m → (s.map g).Free ∧ ¬(s.map g).IsFormWord := by
    intro s hs hrenamed
    obtain ⟨before, behind, hsplit⟩ := List.append_of_mem hs
    obtain ⟨u, hu, hstart, -, -, hfree, hword⟩ := h before s behind hsplit hrenamed
    have hsame : u = s.map g := by
      refine eq_of_start_eq hu ?_ (hstart.trans (hspells.start_map hsites hsplit).symm)
      rw [hsites]
      exact List.mem_map_of_mem hs
    rw [← hsame]
    exact ⟨hfree, hword⟩
  have hwords : PlainCalls m formula := by
    intro s hs hrenamed hcallee
    by_contra hform
    exact (hkept s hs hrenamed).2 ((hspells.isFormWord_map_iff hs).mpr ⟨hcallee, hform⟩)
  refine ⟨hwords, fun s hs hrenamed ↦ ?_, fun p s behind hsuffix _ ↦ hstops.of_suffix hsuffix⟩
  exact (hspells.free_map_iff hwords hs hrenamed).mp (hkept s hs hrenamed).1

/-- What can be given as an alias is read as one identifier. -/
theorem isIdentifier_of_isValid {name : String} (h : Alias.isValid name = true) :
    isIdentifier name.toList = true := by
  rw [Alias.isValid] at h
  cases hname : name.toList with
  | nil =>
    rw [hname] at h
    cases h
  | cons c rest =>
    rw [hname, Bool.and_eq_true] at h
    exact h.1

/-- Exactly the clear renamings to aliases capture nothing. -/
theorem uncaptured_iff_clear (hvalid : ∀ new ∈ m.values, Alias.isValid new = true) :
    Uncaptured m formula ↔ Clear m formula := by
  have hidentifier : ∀ new ∈ m.values, isIdentifier new.toList = true :=
    fun new hnew ↦ isIdentifier_of_isValid (hvalid new hnew)
  exact ⟨clear_of_uncaptured hidentifier, uncaptured_of_clear hidentifier⟩

/-- Numbers that stand apart from identifiers end as before under every renaming. -/
theorem stopsBefore_of_numbersApart (hnumbers : NumbersApart (tokenize formula)) (p s : Site)
    (behind : List Site) (hsuffix : p :: s :: behind <:+ sitesOf formula) (hrenamed : s.Renamed m) :
    StopsBefore m p (s :: behind) := by
  intro hnumber
  rw [NumbersApart, ← map_token_sitesOf, List.isChain_map] at hnumbers
  exact absurd hrenamed.1 ((List.isChain_cons_cons.mp (hnumbers.suffix hsuffix)).1 hnumber)

/-- The new name of `F` is bound by the `LET` beside it, but not at its place. -/
theorem uncaptured_iff_clear_beside :
    let formula := "LET(y, 2, y + 1) * F(LAMBDA(F, F(y)))"
    let m : RenameMap := .ofList [("F", "y")]
    rename m formula = "LET(y, 2, y + 1) * y(LAMBDA(F, F(y)))" ∧ Uncaptured m formula := by
  intro formula m
  have hvalid : ∀ new ∈ m.values, Alias.isValid new = true := by decide +kernel
  have hnumbers : NumbersApart (tokenize formula) := by decide +kernel
  have hwords : ∀ s ∈ sitesOf formula, s.Renamed m → s.callee = true →
      CallForm.of (s.tokenUnder m) = .ordinary := by decide +kernel
  have hscopes : ∀ s ∈ sitesOf formula, s.Renamed m → ∀ f ∈ s.frames, ¬f.Binds (s.textUnder m) := by
    decide +kernel
  have hrenamed : rename m formula = "LET(y, 2, y + 1) * y(LAMBDA(F, F(y)))" := by
    rw [← String.toList_inj, rename, serialize, toList_textOf]
    decide +kernel
  exact ⟨hrenamed,
    (uncaptured_iff_clear hvalid).mpr ⟨hwords, hscopes, stopsBefore_of_numbersApart hnumbers⟩⟩

/-- The parameter of a `LAMBDA` binds the new name, and a call becomes a `LAMBDA`. -/
theorem captured_by_binding_forms :
    let parameter : RenameMap := .ofList [("F", "y")]
    let word : RenameMap := .ofList [("F", "LAMBDA")]
    (∀ new ∈ parameter.values ++ word.values, Alias.isValid new = true) ∧
      rename parameter "LAMBDA(y, F(y))" = "LAMBDA(y, y(y))" ∧
      ¬Uncaptured parameter "LAMBDA(y, F(y))" ∧
      rename word "F(y, y)" = "LAMBDA(y, y)" ∧ ¬Uncaptured word "F(y, y)" := by
  intro parameter word
  have hscopes : ¬∀ s ∈ sitesOf "LAMBDA(y, F(y))", s.Renamed parameter →
      ∀ f ∈ s.frames, ¬f.Binds (s.textUnder parameter) := by decide +kernel
  have hwords : ¬∀ s ∈ sitesOf "F(y, y)", s.Renamed word → s.callee = true →
      CallForm.of (s.tokenUnder word) = .ordinary := by decide +kernel
  refine ⟨by decide +kernel, ?_, fun h ↦ ?_, ?_, fun h ↦ ?_⟩
  · rw [← String.toList_inj, rename, serialize, toList_textOf]
    decide +kernel
  · exact hscopes (clear_of_uncaptured (by decide +kernel) h).scopes
  · rw [← String.toList_inj, rename, serialize, toList_textOf]
    decide +kernel
  · exact hwords (clear_of_uncaptured (by decide +kernel) h).words

/-- Names that are new to a text, and no words of binding forms, are not captured in it. -/
theorem uncaptured_of_freshIn (hnumbers : NumbersApart (tokenize formula))
    (hfresh : ∀ new ∈ m.values, FreshIn formula new) : Uncaptured m formula := by
  have hnew {s : Site} (hrenamed : s.Renamed m) : FreshIn formula (s.textUnder m) :=
    hfresh _ (mem_values_of_get? (Site.get?_textUnder hrenamed))
  refine uncaptured_of_clear (fun new hnew ↦ (hfresh new hnew).1) ⟨?_, ?_,
    stopsBefore_of_numbersApart hnumbers⟩
  · intro s _ hrenamed _
    obtain ⟨-, ⟨hlet, hlambda⟩, -⟩ := hnew hrenamed
    simp [CallForm.of, isNamed, Site.tokenUnder, Token.withText, hlet, hlambda]
  · rintro s hs hrenamed f hf ⟨i, -, -, -, hdeclared⟩
    obtain ⟨slice, hslice, hname⟩ := Option.bind_eq_some_iff.mp hdeclared
    obtain ⟨t, ht, hkind, htext⟩ := exists_of_declaredName? hname
    obtain ⟨u, hu, rfl, -⟩ := (among_of_mem_sitesOf hs hf).slices i slice hslice t ht
    refine (hnew hrenamed).2.2 u.token ?_ hkind htext
    rw [← map_token_sitesOf]
    exact List.mem_map_of_mem hu

end SheetPackages.Formula
