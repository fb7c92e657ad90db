import Alligator.Metric.Exposition

/-!
# The second renderer

A scrape with transforms is rendered by the serializer of the exporters.  Without a transform
and without labels to add it writes what `metrictree_str_build` writes, except for a label with
an empty value, which it leaves out.
-/

namespace Alligator

open Text Memory RedBlack List Option

/-- The loop over the labels in `serialize_openmetrics`, `init` telling that none was printed. -/
def serializeLabels : Bool → Labels → Str
  | init, [] => if init then [] else cstr "\x7d"
  | init, l :: labels =>
    let key := l.key.getD []
    if key.length = 0 then serializeLabels init labels
    else
      (if init then cstr "\x7b" else cstr ",") ++ l.name ++ cstr "=\"" ++ key ++ cstr "\"" ++
        serializeLabels false labels

/-- The line of a sample as the serializer writes it. -/
def serializedLine (key : Str) (x : Series) : Str :=
  key ++ serializeLabels true x.labels.tail ++ cstr " " ++ valueText x ++ cstr "\n"

/-- What the serializer carries along. -/
structure SerializerContext where
  str : Str
  lastFamily : Str

/-- `serializer_openmetrics_emit_family_headers` -/
def emitFamilyHeaders (ns : Families) (openmetrics : Bool) (storedKey exportKey : Str)
    (sc : SerializerContext) : SerializerContext :=
  let exportForFamily := if exportKey = [] then storedKey else exportKey
  let (family, fam) := promFamilyExpositionResolve ns exportForFamily 256
  let fam := if fam.isNone ∧ exportForFamily ≠ storedKey then
      (promFamilyExpositionResolve ns storedKey 256).2
    else fam
  if sc.lastFamily ≠ [] ∧ sc.lastFamily = family then sc
  else ⟨sc.str ++ (headerLines openmetrics family fam).flatMap Line.text, strlcpy family 256⟩

/-- `serialize_openmetrics`, with an action that has no transform and no labels. -/
def serializeOpenmetrics (ns : Families) (openmetrics : Bool) (x : Series)
    (sc : SerializerContext) : Option SerializerContext := do
  let key ← keyOf x.labels
  let sc := emitFamilyHeaders ns openmetrics key key sc
  return ⟨sc.str ++ serializedLine key x, sc.lastFamily⟩

def metrictreeStrBuildSerialize (ns : Families) (openmetrics : Bool) (h : Nodes) :
    Nat → Ptr → SerializerContext → Option SerializerContext
  | _, none, sc => some sc
  | 0, some _, _ => none
  | fuel + 1, some x, sc => do
    let n ← h.get x
    let sc ← metrictreeStrBuildSerialize ns openmetrics h fuel n.left sc
    let sc ← serializeOpenmetrics ns openmetrics n.toSeries sc
    metrictreeStrBuildSerialize ns openmetrics h fuel n.right sc

def Store.serialized (s : Store) (ns : Families) (openmetrics : Bool) : Option SerializerContext :=
  metrictreeStrBuildSerialize ns openmetrics s.nodes s.nodes.next s.root ⟨[], []⟩

def Page.text (page : Page) : Str := page.lines.flatMap Line.text

/-- No label of the series is empty. -/
def Series.Valued (x : Series) : Prop := ∀ l ∈ x.labels.tail, l.key ≠ some []

/-! ## One sample -/

lemma serializeLabels_eq {labels : Labels} (h : ∀ l ∈ labels, l.key ≠ some []) (init : Bool) :
    serializeLabels init labels = labelsText (!init) labels := by
  induction labels generalizing init with
  | nil => cases init <;> rfl
  | cons l labels ih =>
    obtain ⟨hl, hlabels⟩ := forall_mem_cons.1 h
    rw [serializeLabels, labelsText]
    cases hkey : l.key with
    | none => simpa using ih hlabels init
    | some key =>
      have hne : key ≠ [] := fun hnil => hl (hkey.trans (congrArg some hnil))
      cases init <;> simp [hne, ih hlabels]

/-- The serializer prints no more labels, so that its text is not longer. -/
lemma length_serializeLabels (labels : Labels) (init quotesOpen : Bool)
    (h : init = false → quotesOpen = true) :
    (serializeLabels init labels).length ≤ (labelsText quotesOpen labels).length ∧
      ((∃ l ∈ labels, l.key = some []) →
        (serializeLabels init labels).length < (labelsText quotesOpen labels).length) := by
  induction labels generalizing init quotesOpen with
  | nil =>
    cases init with
    | true => simp [serializeLabels]
    | false => simp [serializeLabels, labelsText, h rfl]
  | cons l labels ih =>
    have hquote : 0 < (cstr "\"").length := by decide
    rw [serializeLabels, labelsText]
    cases hkey : l.key with
    | none => simpa [hkey] using ih init quotesOpen h
    | some key =>
      cases key with
      | nil =>
        have hle := (ih init true fun _ => rfl).1
        simp only [getD_some, length_nil, if_true, length_append]
        exact ⟨by omega, fun _ => by omega⟩
      | cons c key =>
        obtain ⟨hle, hlt⟩ := ih false true fun _ => rfl
        have hsep : (if init then cstr "\x7b" else cstr ",").length =
            (if quotesOpen then cstr "," else cstr "\x7b").length := by
          cases init <;> cases quotesOpen <;> rfl
        simp only [getD_some, length_cons, Nat.succ_ne_zero, if_false,
          length_append, hsep, exists_mem_cons_iff, hkey, some.injEq, reduceCtorEq, false_or]
        exact ⟨by omega, fun hempty => by have := hlt hempty; omega⟩

variable {x : Series} {page : Page}

lemma serializedLine_spec {key : Str} (hkey : keyOf x.labels = some key) :
    (serializedLine key x).length ≤ (Line.sample x).text.length ∧
      (serializedLine key x = (Line.sample x).text ↔ x.Valued) := by
  obtain ⟨hle, hlt⟩ := length_serializeLabels x.labels.tail true false nofun
  have hshort : ¬x.Valued → (serializedLine key x).length < (Line.sample x).text.length := by
    intro hempty
    rw [Series.Valued] at hempty
    push Not at hempty
    have := hlt hempty
    simp only [serializedLine, Line.text, sampleText, hkey, getD_some, length_append]
    omega
  refine ⟨?_, ⟨fun heq => ?_, fun hvalued => ?_⟩⟩
  · simp only [serializedLine, Line.text, sampleText, hkey, getD_some, length_append]
    omega
  · by_contra hempty
    exact (hshort hempty).ne (congrArg List.length heq)
  · rw [serializedLine, serializeLabels_eq hvalued]
    simp [Line.text, sampleText, hkey]

/-! ## The whole page -/

/-- The two renderers after the same series. -/
structure Abreast (xs : List Series) (page : Page) (sc : SerializerContext) : Prop where
  family : sc.lastFamily = page.lastFamily
  length : sc.str.length ≤ page.text.length
  text : page.text = sc.str ↔ ∀ x ∈ xs, x.Valued

variable {sc : SerializerContext} {xs : List Series}

section

variable (h : Abreast xs page sc)
include h

/-- The headers of a family keep the renderers abreast. -/
lemma Abreast.headers (ns : Families) (openmetrics : Bool) (key : Str) :
    let family := (promFamilyExpositionResolve ns key 256).1
    let fam := (promFamilyExpositionResolve ns key 256).2
    ∃ page1, page1 = (if page.lastFamily = [] ∨ page.lastFamily ≠ family then
        ⟨page.lines ++ headerLines openmetrics family fam, strlcpy family 256⟩ else page) ∧
      Abreast xs page1 (emitFamilyHeaders ns openmetrics key key sc) := by
  intro family fam
  refine ⟨_, rfl, ?_⟩
  have hcond : (sc.lastFamily ≠ [] ∧ sc.lastFamily = family) ↔
      ¬(page.lastFamily = [] ∨ page.lastFamily ≠ family) := by
    rw [h.family, not_or, not_not]
  simp only [emitFamilyHeaders, ite_self, ne_eq, not_true_eq_false, and_false]
  split
  · case isTrue hnew =>
      rw [if_neg (fun hold => hcond.1 hold hnew)]
      refine ⟨rfl, ?_, ?_⟩
      · simpa [Page.text, family, fam] using h.length
      · simpa [Page.text, family, fam] using h.text
  · case isFalse hold =>
      rw [if_pos (hcond.2 hold)]
      exact h

lemma Abreast.node (ns : Families) (openmetrics : Bool)
    (hx : (keyOf x.labels).isSome) : ∃ page' sc', strBuildNode ns openmetrics x page = some page' ∧
      serializeOpenmetrics ns openmetrics x sc = some sc' ∧ Abreast (xs ++ [x]) page' sc' := by
  obtain ⟨key, hkey⟩ := isSome_iff_exists.1 hx
  obtain ⟨hle, heq⟩ := serializedLine_spec hkey
  obtain ⟨page1, hpage1, hheaders⟩ := h.headers ns openmetrics key
  generalize hsc1 : emitFamilyHeaders ns openmetrics key key sc = sc1 at hheaders
  refine ⟨⟨page1.lines ++ [.sample x], page1.lastFamily⟩,
    ⟨sc1.str ++ serializedLine key x, sc1.lastFamily⟩, ?_, ?_, hheaders.family, ?_, ?_⟩
  · rw [strBuildNode, hkey, hpage1]
    rfl
  · rw [serializeOpenmetrics, hkey, ← hsc1]
    rfl
  · have := hheaders.length
    simp only [Page.text, flatMap_append, flatMap_singleton, length_append] at this ⊢
    omega
  · have hsplit : Page.text ⟨page1.lines ++ [.sample x], page1.lastFamily⟩ =
        page1.text ++ (Line.sample x).text := by simp [Page.text]
    rw [hsplit, append_eq_iff hheaders.length hle, hheaders.text, eq_comm (a := Line.text _), heq]
    simp [or_imp, forall_and]

/-- The walks go through the same series. -/
lemma Abreast.nodes (ns : Families) (openmetrics : Bool) {ys : List Series}
    (hys : ∀ x ∈ ys, (keyOf x.labels).isSome) : ∃ page' sc',
      ys.foldlM (fun page x => strBuildNode ns openmetrics x page) page = some page' ∧
      ys.foldlM (fun sc x => serializeOpenmetrics ns openmetrics x sc) sc = some sc' ∧
      Abreast (xs ++ ys) page' sc' := by
  induction ys generalizing xs page sc with
  | nil => exact ⟨page, sc, rfl, rfl, by rwa [append_nil]⟩
  | cons x ys ih =>
    obtain ⟨hx, hys⟩ := forall_mem_cons.1 hys
    obtain ⟨page1, sc1, e1, e1', h1⟩ := h.node ns openmetrics hx
    obtain ⟨page2, sc2, e2, e2', h2⟩ := ih h1 hys
    refine ⟨page2, sc2, ?_, ?_, by rwa [append_assoc] at h2⟩
    · rw [foldlM_cons, e1]
      exact e2
    · rw [foldlM_cons, e1']
      exact e2'

end

/-- The two ways to render a scrape give the same text if and only if no stored label has an
empty value. -/
theorem scrape_paths_agree_iff {s : Store} {L : List Record} (h : Holds s L) (ns : Families)
    (openmetrics : Bool) :
    ∃ page sc, s.page ns openmetrics = some page ∧ s.serialized ns openmetrics = some sc ∧
      (page.text = sc.str ↔ ∀ x ∈ L, x.series.Valued) := by
  obtain ⟨T, lists, S, -⟩ := h
  have hwalk : T.Within (links s.nodes) (fun _ => True) s.nodes.next :=
    ⟨S.tree.lies, fun _ _ => trivial, S.tree.length_le⟩
  have hstart : Abreast [] ⟨[], []⟩ ⟨[], []⟩ := ⟨rfl, le_rfl, by simp [Page.text]⟩
  obtain ⟨page, sc, hpage, hsc, hend⟩ := hstart.nodes ns openmetrics S.keys
  have hbuild := walk_eq (strBuildNode ns openmetrics) (metrictreeStrBuild ns openmetrics s.nodes)
    (fun fuel page => by cases fuel <;> rfl)
    (fun page hget => by rw [metrictreeStrBuild, hget]; rfl) hwalk ⟨[], []⟩
  have hserialize := walk_eq (serializeOpenmetrics ns openmetrics)
    (metrictreeStrBuildSerialize ns openmetrics s.nodes) (fun fuel sc => by cases fuel <;> rfl)
    (fun sc hget => by rw [metrictreeStrBuildSerialize, hget]; rfl) hwalk ⟨[], []⟩
  rw [S.series_eq, S.tree.root_eq] at hbuild hserialize
  refine ⟨page, sc, hbuild.trans hpage, hserialize.trans hsc, hend.text.trans ?_⟩
  simp

/-- A series with a label and one without. -/
theorem scrape_paths_agree_two :
    ∃ s outs page sc, (Store.init 0).mapRun (fun a _ => a)
        [.put (cstr "up") (LabelHash.empty.insert (cstr "a") (cstr "b")) 1,
          .put (cstr "down") .empty 2] = some (s, outs) ∧ s.contents.length = 2 ∧
      s.page [] false = some page ∧ s.serialized [] false = some sc ∧ page.text = sc.str := by
  obtain ⟨s, outs, e, hL, hlen, hvalued⟩ := mapRun_init (fun a _ => a)
    [.put (cstr "up") (LabelHash.empty.insert (cstr "a") (cstr "b")) 1,
      .put (cstr "down") .empty 2]
    (fun L => L.length = 2 ∧ ∀ x ∈ L, ∀ l ∈ x.series.labels.tail, l.key ≠ some [])
    (by decide +kernel)
  obtain ⟨page, sc, hpage, hsc, hiff⟩ := scrape_paths_agree_iff hL [] false
  exact ⟨s, outs, page, sc, e, hlen, hpage, hsc, hiff.2 hvalued⟩

/-- The series `up{a=""}`. -/
theorem scrape_paths_differ :
    ((upsertSample (fun a _ => a) ⟨10, 10⟩ (.init 0) (cstr "up")
        (LabelHash.empty.insert (cstr "a") []) ⟨.int, 1, 100, false, false⟩).bind fun r =>
      (r.1.page [] false).bind fun page => (r.1.serialized [] false).map fun sc =>
        (page.text, sc.str)) =
    some (cstr "# HELP up up\n# TYPE up untyped\nup\x7ba=\"\"\x7d 1\n",
      cstr "# HELP up up\n# TYPE up untyped\nup 1\n") := by
  decide

end Alligator
