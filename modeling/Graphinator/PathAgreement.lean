import Graphinator.Asserted
import Graphinator.ReleaseScope
import Graphinator.WritePaths

/-!
# When the two write paths agree

The transactions of the two paths are the same on the same rows. What differs is what they read in a
record: the hash of a record that has none, a name or a title that is missing, entries of `genres`
and `styles` that are false, and the catalogue number of a release.

## Main definitions

* `FieldsAgree` : the two paths put the same on the node of the record, and assert the same genres
  and styles.
* `PathsAgree` : both find the hash stored, both refuse the record, or both write it with fields that
  agree.

## Main results

* `write_eq_iff` : two rows of one record leave the same graph exactly where the fields agree.
* `write_paths_agree` : the outcomes are the same exactly where `PathsAgree` holds.
-/

namespace Graphinator

open PropertyGraph PyValue

/-! ### Where the rows of the two paths agree -/

section Fields

variable {env : Env} {g : Graph} {record : PyValue}

/-- The record has the field, whatever its value. -/
def HasField (record : PyValue) (key : String) : Prop := ∃ x, record.item key = .ok x

/-- No entry of the field is false. -/
def NoFalseEntry (record : PyValue) (key : String) : Prop :=
  ∀ values items, record.get key = .ok values → (values.orElse (.arr [])).iter = .ok items →
    ∀ x ∈ items, x.truthy = true

/-- The two paths put the same on the node of the record, and assert the same genres and styles. -/
def FieldsAgree (env : Env) (g : Graph) (t : DataType) (record : PyValue) : Prop :=
  match t with
  | .artists => HasField record "name" ∧ ∃ id, record.get "id" = .ok id ∧
      cypherConcat env.floatText "https://api.discogs.com/artists/" id =
        .ok (.str ("https://api.discogs.com/artists/" ++ id.pyStr env.repr))
  | .labels => HasField record "name"
  | .masters =>
    HasField record "title" ∧ NoFalseEntry record "genres" ∧ NoFalseEntry record "styles"
  | .releases =>
    HasField record "title" ∧ NoFalseEntry record "genres" ∧ NoFalseEntry record "styles" ∧
      ∀ v metadata, recordNode? .release record = some v → releaseMetadata record = .ok metadata →
        ∀ kv ∈ metadata, prop g v kv.1 = kv.2

theorem eq_of_storable {x y : PyValue} (h : storable x = .ok y) : y = x := by
  cases x with
  | arr xs =>
    simp only [storable] at h
    split_ifs at h
    exact (Except.ok.inj h).symm
  | obj fields => cases h
  | _ => exact (Except.ok.inj h).symm

/-- A field that is there is read the same way with and without a default. -/
theorem getD_of_hasField {key : String} (h : HasField record key) (d : PyValue) :
    record.getD key d = record.get key := by
  obtain ⟨x, hx⟩ := h
  cases record with
  | obj fields =>
    simp only [PyValue.item, PyValue.get, PyValue.getD] at hx ⊢
    split at hx
    · next hfield => simp [hfield]
    · cases hx
  | _ => cases hx

/-- A default that is a text is told from a missing field. -/
theorem hasField_of_eq {key s : String} {x y z : PyValue} (hx : record.getD key (.str s) = .ok x)
    (hy : record.get key = .ok y) (hxz : storable x = .ok z) (hyz : storable y = .ok z) :
    HasField record key := by
  cases record with
  | obj fields =>
    simp only [PyValue.get, PyValue.getD, Except.ok.injEq] at hx hy
    cases hfield : field? fields key with
    | some value => exact ⟨value, by simp [PyValue.item, hfield]⟩
    | none =>
      simp only [hfield, Option.getD_none] at hx hy
      have heq := (eq_of_storable hxz).symm.trans (eq_of_storable hyz)
      rw [← hx, ← hy] at heq
      cases heq
  | _ => cases hx

/-- Two rows of one node that leave the same graph set the same properties. -/
theorem prop_eq_of_write_eq {ρ : Type} {T : NodeWriter env ρ} {r r' : ρ}
    (hown : T.own r = T.own r') (hlabel : (T.own r).label = T.projector.label)
    (hwrite : T.projector.write [r] g = T.projector.write [r'] g) (key : String) :
    setProps (T.props r) (g.nodes.row (T.own r)) key =
      setProps (T.props r') (g.nodes.row (T.own r)) key := by
  have hrow := congrArg (fun t : Graph => t.nodes.row (T.own r) key) hwrite
  simp only [T.write_row _ g _ hlabel, updateRow, List.foldl_cons, List.foldl_nil, ← hown] at hrow
  exact hrow

/-- A value that both rows set is the same. -/
theorem value_eq_of_write_eq {ρ : Type} {T : NodeWriter env ρ} {r r' : ρ} (key : String)
    {x y : PyValue} (hown : T.own r = T.own r') (hlabel : (T.own r).label = T.projector.label)
    (hwrite : T.projector.write [r] g = T.projector.write [r'] g)
    (hnodup : ((T.props r).map (·.1)).Nodup) (hnodup' : ((T.props r').map (·.1)).Nodup)
    (hx : (key, x) ∈ T.props r) (hy : (key, y) ∈ T.props r') : x = y := by
  have hprop := prop_eq_of_write_eq hown hlabel hwrite key
  have hxv := setProps_of_mem hnodup hx (g.nodes.row (T.own r))
  have hyv := setProps_of_mem hnodup' hy (g.nodes.row (T.own r))
  exact hxv.symm.trans (hprop.trans hyv)

/-- The transactions of an artist are the same where the name is there and the texts of the id
agree. -/
theorem artistWrites_iff {r r' : ArtistRow} (hone : artistRecord env record = .ok r)
    (hrow : artistRow env record = .ok r') :
    writeArtists [r] g = writeArtists [r'] g ↔ FieldsAgree env g .artists record := by
  simp only [artistRecord, artistRow, bind_eq_ok, pure_eq_ok] at hone hrow
  have hid : r.id = r'.id := by grind [get_of_item]
  constructor
  · intro hwrite
    have hname : r.name = r'.name := value_eq_of_write_eq (T := artistsWriter env) "name"
      (congrArg Node.artist hid) rfl hwrite (by simp [artistsWriter, ArtistRow.props])
      (by simp [artistsWriter, ArtistRow.props]) (by simp [artistsWriter, ArtistRow.props])
      (by simp [artistsWriter, ArtistRow.props])
    have hurl : r.resourceUrl = r'.resourceUrl := value_eq_of_write_eq (T := artistsWriter env)
      "resource_url" (congrArg Node.artist hid) rfl hwrite (by simp [artistsWriter, ArtistRow.props])
      (by simp [artistsWriter, ArtistRow.props]) (by simp [artistsWriter, ArtistRow.props])
      (by simp [artistsWriter, ArtistRow.props])
    refine ⟨?_, ?_⟩
    · obtain ⟨x, hx, hxr⟩ : ∃ x, record.getD "name" (.str "Unknown Artist") = .ok x ∧
          storable x = .ok r.name := by grind
      obtain ⟨y, hy, hyr⟩ : ∃ y, record.get "name" = .ok y ∧ storable y = .ok r'.name := by grind
      exact hasField_of_eq hx hy hxr (hname ▸ hyr)
    · obtain ⟨id, hitem, hurlOne⟩ : ∃ id, record.item "id" = .ok id ∧ r.resourceUrl =
          .str ("https://api.discogs.com/artists/" ++ id.pyStr env.repr) := by grind
      obtain ⟨id', url, hget, hconcat, hurlRow⟩ : ∃ id' url, record.get "id" = .ok id' ∧
          cypherConcat env.floatText "https://api.discogs.com/artists/" id' = .ok url ∧
          storable url = .ok r'.resourceUrl := by grind
      obtain rfl : id = id' := Except.ok.inj ((get_of_item hitem).symm.trans hget)
      refine ⟨id, hget, ?_⟩
      rw [hconcat, ← eq_of_storable hurlRow, ← hurl, hurlOne]
  · rintro ⟨hname, id, hget, hurl⟩
    have hgetD := getD_of_hasField hname (.str "Unknown Artist")
    have heq : r = r' := by
      grind [get_of_item, appendReleases, storable_str]
    rw [heq]

theorem labelWrites_iff {r r' : LabelRow} (hone : labelRecord record = .ok r)
    (hrow : labelRow record = .ok r') :
    writeLabels [r] g = writeLabels [r'] g ↔ FieldsAgree env g .labels record := by
  simp only [labelRecord, labelRow, bind_eq_ok, pure_eq_ok] at hone hrow
  have hid : r.id = r'.id := by grind [get_of_item]
  constructor
  · intro hwrite
    have hname : r.name = r'.name := value_eq_of_write_eq (T := labelsWriter env) "name"
      (congrArg Node.ofLabel hid) rfl hwrite (by simp [labelsWriter, LabelRow.props])
      (by simp [labelsWriter, LabelRow.props]) (by simp [labelsWriter, LabelRow.props])
      (by simp [labelsWriter, LabelRow.props])
    obtain ⟨x, hx, hxr⟩ : ∃ x, record.getD "name" (.str "Unknown Label") = .ok x ∧
        storable x = .ok r.name := by grind
    obtain ⟨y, hy, hyr⟩ : ∃ y, record.get "name" = .ok y ∧ storable y = .ok r'.name := by grind
    exact hasField_of_eq hx hy hxr (hname ▸ hyr)
  · intro hname
    have hgetD := getD_of_hasField hname (.str "Unknown Label")
    have heq : r = r' := by
      grind [get_of_item]
    rw [heq]

/-! ### Genres and styles -/

theorem truthy_of_nodeKey {x k : PyValue} (h : nodeKey x = .ok k) : k.truthy = x.truthy := by
  cases x with
  | float q =>
    obtain rfl := Except.ok.inj h
    simp only [cypherNumber]
    split_ifs with hden
    · have hq : (q.num : ℚ) = q := (Rat.den_eq_one_iff q).mp hden
      have hiff : q.num = 0 ↔ q = 0 := Rat.num_eq_zero
      simp [truthy, hiff]
    · rfl
  | arr xs =>
    simp only [nodeKey] at h
    split_ifs at h
    obtain rfl := Except.ok.inj h
    simp [truthy]
  | null => cases h
  | obj fields => cases h
  | _ =>
    obtain rfl := Except.ok.inj h
    rfl

/-- A missing list and an empty one are iterated alike. -/
theorem orElse_of_getD {key : String} {a b : PyValue} (ha : record.getD key (.arr []) = .ok a)
    (hb : record.get key = .ok b) : a.orElse (.arr []) = b.orElse (.arr []) := by
  cases record with
  | obj fields =>
    simp only [PyValue.get, PyValue.getD, Except.ok.injEq] at ha hb
    cases hfield : field? fields key with
    | some value =>
      simp only [hfield, Option.getD_some] at ha hb
      rw [← ha, ← hb]
    | none =>
      simp only [hfield, Option.getD_none] at ha hb
      rw [← ha, ← hb]
      rfl
  | _ => cases ha

section Names

variable {key : String} {a b : PyValue} {xs ys : List PyValue}

theorem allNames_eq (h : NoFalseEntry record key) (ha : record.getD key (.arr []) = .ok a)
    (hxs : allNames a = .ok xs) (hb : record.get key = .ok b) (hys : truthyNames b = .ok ys) :
    xs = ys := by
  simp only [allNames, truthyNames, bind_eq_ok, orElse_of_getD ha hb] at hxs hys
  obtain ⟨items, hitems, hxs⟩ := hxs
  obtain ⟨items', hitems', hys⟩ := hys
  obtain rfl : items = items' := Except.ok.inj (hitems.symm.trans hitems')
  have htruthy : items.filter truthy = items :=
    List.filter_eq_self.mpr fun x hx => h b items hb hitems x hx
  rw [htruthy] at hys
  exact Except.ok.inj (hxs.symm.trans hys)

theorem truthy_of_truthyNames (hys : truthyNames b = .ok ys) : ∀ k ∈ ys, k.truthy = true := by
  simp only [truthyNames, bind_eq_ok] at hys
  obtain ⟨items, -, hys⟩ := hys
  intro k hk
  obtain ⟨x, hx, hkey⟩ := exists_left_of_mem (mapM_eq_ok.mp hys) hk
  rw [truthy_of_nodeKey hkey]
  exact (List.mem_filter.mp hx).2

theorem noFalseEntry_of_names (ha : record.getD key (.arr []) = .ok a) (hxs : allNames a = .ok xs)
    (htruthy : ∀ k ∈ xs, k.truthy = true) : NoFalseEntry record key := by
  intro b items hb hitems x hx
  simp only [allNames, bind_eq_ok, orElse_of_getD ha hb] at hxs
  obtain ⟨items', hitems', hxs⟩ := hxs
  obtain rfl : items = items' := Except.ok.inj (hitems.symm.trans hitems')
  obtain ⟨k, hk, hkey⟩ := exists_right_of_mem (mapM_eq_ok.mp hxs) hx
  rw [← truthy_of_nodeKey hkey]
  exact htruthy k hk

end Names

/-- The first item of a value is one of the items it goes through. -/
theorem mem_iter_of_item0 {value x : PyValue} (h : value.item0 = .ok x) :
    value.truthy = true ∧ ∃ items, value.iter = .ok items ∧ x ∈ items := by
  cases value with
  | arr xs =>
    cases xs with
    | nil => cases h
    | cons y ys =>
      obtain rfl := Except.ok.inj h
      exact ⟨rfl, _, rfl, List.mem_cons_self ..⟩
  | str s =>
    simp only [PyValue.item0] at h
    cases hs : s.toList with
    | nil => simp [hs] at h
    | cons c cs =>
      simp only [hs, Except.ok.injEq] at h
      subst h
      refine ⟨?_, _, rfl, by simp [hs]⟩
      rw [truthy_str]
      rintro rfl
      simp at hs
  | _ => cases h

theorem iter_of_not_truthy {value : PyValue} {items : List PyValue} (h : value.truthy = false)
    (hitems : value.iter = .ok items) : items = [] := by
  cases value with
  | arr xs =>
    obtain rfl := Except.ok.inj hitems
    simpa [truthy] using h
  | str s =>
    obtain rfl := Except.ok.inj hitems
    simpa [truthy] using h
  | obj fields =>
    obtain rfl := Except.ok.inj hitems
    simpa [truthy] using h
  | _ => cases hitems

/-- The items of a value that is there are the ones that a missing one is told from. -/
theorem noFalseEntry_items {key : String} {a x : PyValue} {items : List PyValue}
    (h : NoFalseEntry record key) (ha : record.getD key (.arr []) = .ok a)
    (hitems : a.iter = .ok items) (hx : x ∈ items) : x.truthy = true := by
  obtain ⟨b, hb⟩ : ∃ b, record.get key = .ok b := by
    cases record with
    | obj fields => exact ⟨_, rfl⟩
    | _ => cases ha
  have htruthy : a.truthy = true := by
    rw [← Bool.not_eq_false]
    intro hfalse
    rw [iter_of_not_truthy hfalse hitems] at hx
    exact absurd hx List.not_mem_nil
  refine h b items hb ?_ x hx
  rw [← orElse_of_getD ha hb, PyValue.orElse, if_pos htruthy]
  exact hitems

theorem pairs_eq_map {genre k : PyValue} {values names : List PyValue}
    {pairs : List (PyValue × PyValue)} (hk : nodeKey genre = .ok k)
    (hpairs : List.Forall₂ (fun style pair => (do
      return (← nodeKey genre, ← nodeKey style) : Except PyError _) = .ok pair) values pairs)
    (hnames : List.Forall₂ (fun style name => nodeKey style = .ok name) values names) :
    pairs = names.map fun style => (k, style) := by
  induction hpairs generalizing names with
  | nil =>
    cases hnames
    rfl
  | cons hpair _ ih =>
    cases hnames with
    | cons hname hnames =>
      simp only [bind_eq_ok, pure_eq_ok, hk, hname, Except.ok.injEq, exists_eq_left'] at hpair
      rw [ih hnames, ← hpair, List.map_cons]

/-- The pairs of the two paths are the same where no genre and no style is false. -/
theorem allGenreStylePairs_eq {pairs pairs' : List (PyValue × PyValue)}
    (hgenres : NoFalseEntry record "genres") (hstyles : NoFalseEntry record "styles")
    (hall : allGenreStylePairs record = .ok pairs) (hbatch : genreStylePairs record = .ok pairs') :
    pairs = pairs' := by
  simp only [allGenreStylePairs, bind_eq_ok] at hall
  simp only [genreStylePairs, bind_eq_ok] at hbatch
  obtain ⟨genres, hg, styles, hs, n, hn, hall⟩ := hall
  obtain ⟨genres', hg', styles', hs', n', hn', hbatch⟩ := hbatch
  obtain rfl : genres = genres' := Except.ok.inj (hg.symm.trans hg')
  obtain rfl : styles = styles' := Except.ok.inj (hs.symm.trans hs')
  obtain rfl : n = n' := Except.ok.inj (hn.symm.trans hn')
  by_cases hone : n = 1
  · rw [if_pos hone] at hbatch
    simp only [bind_eq_ok] at hbatch
    obtain ⟨genre, hgenre, hbatch⟩ := hbatch
    obtain ⟨-, items, hitems, hmem⟩ := mem_iter_of_item0 hgenre
    rw [if_pos (noFalseEntry_items hgenres hg hitems hmem)] at hbatch
    simp only [bind_eq_ok, pure_eq_ok] at hbatch
    obtain ⟨k, hk, values, hvalues, names, hnames, rfl⟩ := hbatch
    cases htruthy : styles.truthy with
    | true =>
      rw [if_pos ⟨hone, htruthy⟩] at hall
      simp only [bind_eq_ok] at hall
      obtain ⟨genre', hgenre', values', hvalues', hall⟩ := hall
      obtain rfl : genre = genre' := Except.ok.inj (hgenre.symm.trans hgenre')
      obtain rfl : values = values' := Except.ok.inj (hvalues.symm.trans hvalues')
      have hfilter : values.filter truthy = values :=
        List.filter_eq_self.mpr fun x hx => noFalseEntry_items hstyles hs hvalues hx
      rw [hfilter] at hnames
      exact pairs_eq_map hk (mapM_eq_ok.mp hall) (mapM_eq_ok.mp hnames)
    | false =>
      rw [if_neg fun h => by simp [htruthy] at h] at hall
      obtain rfl := iter_of_not_truthy htruthy hvalues
      obtain rfl : [] = names := Except.ok.inj hnames
      exact (pure_eq_ok.mp hall).symm
  · rw [if_neg hone] at hbatch
    rw [if_neg fun h => hone h.1] at hall
    exact (pure_eq_ok.mp hall).symm.trans (pure_eq_ok.mp hbatch)

/-- A master has the edge to each genre and style that it names. -/
theorem hasArc_of_mem_master {m : MasterRow} {k : PyValue} (g : Graph) :
    (k ∈ m.genres → (writeMasters [m] g).HasArc ⟨.IS, .master m.id, .genre k⟩) ∧
      (k ∈ m.styles → (writeMasters [m] g).HasArc ⟨.IS, .master m.id, .style k⟩) := by
  rw [writeMasters_eq]
  exact ⟨fun hk => (arcEffect_master m g _).mpr (Or.inr (Or.inr (Or.inl ⟨k, hk, rfl⟩))),
    fun hk => (arcEffect_master m g _).mpr (Or.inr (Or.inr (Or.inr (Or.inl ⟨k, hk, rfl⟩))))⟩

/-- A master whose keep-lists are its names has no other edge to a genre or a style. -/
theorem mem_master_of_hasArc {m : MasterRow} {k : PyValue} (hgenres : m.keepGenres = m.genres)
    (hstyles : m.keepStyles = m.styles) (g : Graph) :
    ((writeMasters [m] g).HasArc ⟨.IS, .master m.id, .genre k⟩ → k ∈ m.genres) ∧
      ((writeMasters [m] g).HasArc ⟨.IS, .master m.id, .style k⟩ → k ∈ m.styles) := by
  rw [writeMasters_eq]
  refine ⟨fun harc => ?_, fun harc => ?_⟩
  · rcases (arcEffect_master m g _).mp harc with ⟨-, hkept⟩ | hmerged
    · by_contra hk
      exact hkept (Or.inr (Or.inl ⟨rfl, rfl, rfl, hgenres ▸ hk⟩))
    · simpa [MasterRow.Asserts, arcsTo, partOfArcs] using hmerged
  · rcases (arcEffect_master m g _).mp harc with ⟨-, hkept⟩ | hmerged
    · by_contra hk
      exact hkept (Or.inr (Or.inr ⟨rfl, rfl, rfl, hstyles ▸ hk⟩))
    · simpa [MasterRow.Asserts, arcsTo, partOfArcs] using hmerged

theorem masterWrites_iff {r r' : MasterRow} (hone : masterRecord record = .ok r)
    (hrow : masterRow record = .ok r') :
    writeMasters [r] g = writeMasters [r'] g ↔ FieldsAgree env g .masters record := by
  simp only [masterRecord, masterRow, bind_eq_ok, pure_eq_ok] at hone hrow
  have hid : r.id = r'.id := by grind [get_of_item]
  obtain ⟨genres, genres', hg, hgr, hg', hgr'⟩ : ∃ genres genres',
      record.getD "genres" (.arr []) = .ok genres ∧ allNames genres = .ok r.genres ∧
      record.get "genres" = .ok genres' ∧ truthyNames genres' = .ok r'.genres := by grind
  obtain ⟨styles, styles', hs, hsr, hs', hsr'⟩ : ∃ styles styles',
      record.getD "styles" (.arr []) = .ok styles ∧ allNames styles = .ok r.styles ∧
      record.get "styles" = .ok styles' ∧ truthyNames styles' = .ok r'.styles := by grind
  obtain ⟨hkeepGenres, hkeepStyles⟩ : r'.keepGenres = r'.genres ∧ r'.keepStyles = r'.styles := by
    grind
  constructor
  · intro hwrite
    have htitle : r.title = r'.title := value_eq_of_write_eq (T := mastersWriter env) "title"
      (congrArg Node.master hid) rfl hwrite (by simp [mastersWriter, MasterRow.props])
      (by simp [mastersWriter, MasterRow.props]) (by simp [mastersWriter, MasterRow.props])
      (by simp [mastersWriter, MasterRow.props])
    have hkept := fun k => mem_master_of_hasArc (m := r') (k := k) hkeepGenres hkeepStyles g
    refine ⟨?_, noFalseEntry_of_names hg hgr fun k hk => ?_,
      noFalseEntry_of_names hs hsr fun k hk => ?_⟩
    · obtain ⟨x, hx, hxr⟩ : ∃ x, record.getD "title" (.str "Unknown Master") = .ok x ∧
          storable x = .ok r.title := by grind
      obtain ⟨y, hy, hyr⟩ : ∃ y, record.get "title" = .ok y ∧ storable y = .ok r'.title := by grind
      exact hasField_of_eq hx hy hxr (htitle ▸ hyr)
    · have harc := (hasArc_of_mem_master (k := k) (m := r) g).1 hk
      rw [hwrite, hid] at harc
      exact truthy_of_truthyNames hgr' k ((hkept k).1 harc)
    · have harc := (hasArc_of_mem_master (k := k) (m := r) g).2 hk
      rw [hwrite, hid] at harc
      exact truthy_of_truthyNames hsr' k ((hkept k).2 harc)
  · rintro ⟨htitle, hgenres, hstyles⟩
    have hgetD := getD_of_hasField htitle (.str "Unknown Master")
    have hgenreNames := allNames_eq hgenres hg hgr hg' hgr'
    have hstyleNames := allNames_eq hstyles hs hsr hs' hsr'
    have hpairs : r.pairs = r'.pairs := by
      obtain ⟨hall, hbatch⟩ : allGenreStylePairs record = .ok r.pairs ∧
          genreStylePairs record = .ok r'.pairs := by grind
      exact allGenreStylePairs_eq hgenres hstyles hall hbatch
    have heq : r = r' := by
      grind [get_of_item]
    rw [heq]

theorem hasArc_of_mem_release {r : ReleaseRow} {k : PyValue} (g : Graph) :
    (k ∈ r.genres → (writeReleases [r] g).HasArc ⟨.IS, .release r.id, .genre k⟩) ∧
      (k ∈ r.styles → (writeReleases [r] g).HasArc ⟨.IS, .release r.id, .style k⟩) := by
  rw [hasArc_writeReleases (by simp), hasArc_writeReleases (by simp), writeReleasesCore_eq]
  refine ⟨fun hk => (arcEffect_release r g _).mpr (Or.inr ?_),
    fun hk => (arcEffect_release r g _).mpr (Or.inr ?_)⟩
  · exact Or.inr (Or.inr (Or.inr (Or.inl ⟨k, hk, rfl⟩)))
  · exact Or.inr (Or.inr (Or.inr (Or.inr (Or.inl ⟨k, hk, rfl⟩))))

theorem mem_release_of_hasArc {r : ReleaseRow} {k : PyValue} (hgenres : r.keepGenres = r.genres)
    (hstyles : r.keepStyles = r.styles) (g : Graph) :
    ((writeReleases [r] g).HasArc ⟨.IS, .release r.id, .genre k⟩ → k ∈ r.genres) ∧
      ((writeReleases [r] g).HasArc ⟨.IS, .release r.id, .style k⟩ → k ∈ r.styles) := by
  rw [hasArc_writeReleases (by simp), hasArc_writeReleases (by simp), writeReleasesCore_eq]
  refine ⟨fun harc => ?_, fun harc => ?_⟩
  · rcases (arcEffect_release r g _).mp harc with ⟨-, hkept⟩ | hmerged
    · by_contra hk
      refine hkept (Or.inl ⟨rfl, ?_⟩)
      exact Or.inr (Or.inr (Or.inr (Or.inl ⟨rfl, rfl, hgenres ▸ hk⟩)))
    · simpa [ReleaseRow.Asserts, arcsTo, partOfArcs, mediaArcs, companyArcs, creditArcs] using hmerged
  · rcases (arcEffect_release r g _).mp harc with ⟨-, hkept⟩ | hmerged
    · by_contra hk
      refine hkept (Or.inl ⟨rfl, ?_⟩)
      exact Or.inr (Or.inr (Or.inr (Or.inr ⟨rfl, rfl, hstyles ▸ hk⟩)))
    · simpa [ReleaseRow.Asserts, arcsTo, partOfArcs, mediaArcs, companyArcs, creditArcs] using hmerged

/-- A `SET` of values that are stored changes nothing. -/
theorem setProps_eq_self {props : List (String × PyValue)} {row : Row}
    (h : ∀ kv ∈ props, row kv.1 = kv.2) : setProps props row = row := by
  induction props with
  | nil => rfl
  | cons kv props ih =>
    rw [setProps_cons, ← h kv (List.mem_cons_self ..), Function.update_eq_self]
    exact ih fun kv' hkv' => h kv' (List.mem_cons_of_mem _ hkv')

theorem mergeNode_congr {v : Node} {u u' : Row → Row} (h : u (g.nodes.row v) = u' (g.nodes.row v)) :
    g.mergeNode v u = g.mergeNode v u' := by
  refine ext_cells (fun w => ?_) (fun w => ?_) (fun _ => Iff.rfl) fun _ => rfl
  · simp only [mem_nodes_mergeNode]
  · simp only [row_nodes_mergeNode]
    split_ifs with hw
    · subst hw
      exact h
    · rfl

/-- The metadata that a release stores already may be left out. -/
theorem writeReleases_metadata {r : ReleaseRow} {metadata : List (String × PyValue)}
    (hstored : ∀ kv ∈ metadata, prop g (.release r.id) kv.1 = kv.2)
    (hkeys : ∀ kv ∈ metadata, kv.1 = "catalog_number") :
    writeReleases [{ r with metadata := [] }] g = writeReleases [{ r with metadata }] g := by
  have hnode : mergeRelease { r with metadata := [] } g = mergeRelease { r with metadata } g := by
    refine mergeNode_congr ?_
    simp only [ReleaseRow.props, List.append_nil]
    rw [setProps, setProps, List.foldl_append]
    refine (setProps_eq_self fun kv hkv => ?_).symm
    refine Eq.trans (setProps_of_notMem (fun kv' hkv' => ?_) _) (hstored kv hkv)
    rw [hkeys kv hkv]
    simp only [List.mem_cons, List.not_mem_nil, or_false] at hkv'
    rcases hkv' with rfl | rfl | rfl | rfl | rfl | rfl <;> simp
  have hcore : writeReleasesCore [{ r with metadata := [] }] g =
      writeReleasesCore [{ r with metadata }] g := by
    rw [writeReleasesCore_eq, writeReleasesCore_eq, runStages_releaseStages,
      runStages_releaseStages, hnode]
    rfl
  exact congrArg (mergeSameAs r) hcore

theorem releaseWrites_iff {r r' : ReleaseRow} (hone : releaseRecord env record = .ok r)
    (hrow : releaseRow env record = .ok r') :
    writeReleases [r] g = writeReleases [r'] g ↔ FieldsAgree env g .releases record := by
  have hnode : recordNode? .release record = some (.release r'.id) :=
    NodeWriter.recordNode?_eq (T := releasesWriter env) hrow
  have hnodup := ReleaseRow.props_nodup hrow
  simp only [releaseRecord, releaseRow, bind_eq_ok, pure_eq_ok] at hone hrow
  have hid : r.id = r'.id := by grind [get_of_item]
  have hnil : r.metadata = [] := by grind
  have hmetadata : releaseMetadata record = .ok r'.metadata := by grind
  have hcatalogue : ∀ kv ∈ r'.metadata, kv.1 = "catalog_number" := by
    intro kv hkv
    have hmem : kv.1 ∈ r'.metadata.map (·.1) := List.mem_map_of_mem hkv
    rcases releaseMetadata_keys hmetadata with hkeys | hkeys <;> rw [hkeys] at hmem
    · exact absurd hmem List.not_mem_nil
    · exact List.mem_singleton.mp hmem
  obtain ⟨genres, genres', hg, hgr, hg', hgr'⟩ : ∃ genres genres',
      record.getD "genres" (.arr []) = .ok genres ∧ allNames genres = .ok r.genres ∧
      record.get "genres" = .ok genres' ∧ truthyNames genres' = .ok r'.genres := by grind
  obtain ⟨styles, styles', hs, hsr, hs', hsr'⟩ : ∃ styles styles',
      record.getD "styles" (.arr []) = .ok styles ∧ allNames styles = .ok r.styles ∧
      record.get "styles" = .ok styles' ∧ truthyNames styles' = .ok r'.styles := by grind
  obtain ⟨hkeepGenres, hkeepStyles⟩ : r'.keepGenres = r'.genres ∧ r'.keepStyles = r'.styles := by
    grind
  constructor
  · intro hwrite
    have hown : (releasesWriter env).own r = (releasesWriter env).own r' :=
      congrArg Node.release hid
    have hnodup' : (r.props.map (·.1)).Nodup := by
      simp [ReleaseRow.props, hnil]
    have htitle : r.title = r'.title := value_eq_of_write_eq (T := releasesWriter env) "title"
      hown rfl hwrite hnodup' hnodup (by simp [releasesWriter, ReleaseRow.props])
      (by simp [releasesWriter, ReleaseRow.props])
    have hkept := fun k => mem_release_of_hasArc (r := r') (k := k) hkeepGenres hkeepStyles g
    refine ⟨?_, noFalseEntry_of_names hg hgr fun k hk => ?_,
      noFalseEntry_of_names hs hsr fun k hk => ?_, fun v metadata hv hmeta kv hkv => ?_⟩
    · obtain ⟨x, hx, hxr⟩ : ∃ x, record.getD "title" (.str "Unknown Release") = .ok x ∧
          storable x = .ok r.title := by grind
      obtain ⟨y, hy, hyr⟩ : ∃ y, record.get "title" = .ok y ∧ storable y = .ok r'.title := by grind
      exact hasField_of_eq hx hy hxr (htitle ▸ hyr)
    · have harc := (hasArc_of_mem_release (k := k) (r := r) g).1 hk
      rw [hwrite, hid] at harc
      exact truthy_of_truthyNames hgr' k ((hkept k).1 harc)
    · have harc := (hasArc_of_mem_release (k := k) (r := r) g).2 hk
      rw [hwrite, hid] at harc
      exact truthy_of_truthyNames hsr' k ((hkept k).2 harc)
    · obtain rfl : r'.metadata = metadata := Except.ok.inj (hmetadata.symm.trans hmeta)
      obtain rfl : (.release r'.id : Node) = v := Option.some.inj (hnode.symm.trans hv)
      have hprop := prop_eq_of_write_eq (T := releasesWriter env) hown rfl hwrite kv.1
      have hset := setProps_of_mem hnodup (List.mem_append_right _ hkv) (g.nodes.row (.release r.id))
      have hkeep : setProps r.props (g.nodes.row (.release r.id)) kv.1 =
          g.nodes.row (.release r.id) kv.1 := by
        refine setProps_of_notMem (fun kv' hkv' => ?_) _
        rw [hcatalogue kv hkv]
        simp only [ReleaseRow.props, hnil, List.append_nil, List.mem_cons, List.not_mem_nil,
          or_false] at hkv'
        rcases hkv' with rfl | rfl | rfl | rfl | rfl | rfl <;> simp
      rw [prop, ← hid]
      exact hkeep.symm.trans (hprop.trans hset)
  · rintro ⟨htitle, hgenres, hstyles, hstored⟩
    have hgetD := getD_of_hasField htitle (.str "Unknown Release")
    have hgenreNames := allNames_eq hgenres hg hgr hg' hgr'
    have hstyleNames := allNames_eq hstyles hs hsr hs' hsr'
    have hpairs : r.pairs = r'.pairs := by
      obtain ⟨hall, hbatch⟩ : allGenreStylePairs record = .ok r.pairs ∧
          genreStylePairs record = .ok r'.pairs := by grind
      exact allGenreStylePairs_eq hgenres hstyles hall hbatch
    have heq : r = { r' with metadata := [] } := by
      grind [get_of_item]
    rw [heq]
    exact writeReleases_metadata (r := r') (hstored _ _ hnode hmetadata) hcatalogue

end Fields

/-! ### When the two paths agree -/

/-- The computation raises. -/
def Raises {α : Type} (x : Except PyError α) : Prop := ∃ error, x = .error error

/-- The two paths agree on a record: both find its hash stored, both refuse it, or both write it with
fields that agree. -/
def PathsAgree (env : Env) (t : DataType) (g : Graph) (record : PyValue) : Prop :=
  ((writerOf env t).projector.usable record = .ok true ∧ FoundUnchanged g t.nodeLabel record ∧
    skips env g t.nodeLabel [record] record = true) ∨
  (¬FoundUnchanged g t.nodeLabel record ∧ Raises (oneRow env t record) ∧
    ((writerOf env t).projector.usable record ≠ .ok true ∨
      (skips env g t.nodeLabel [record] record ≠ true ∧
        Raises ((writerOf env t).projector.row record)))) ∨
  ((writerOf env t).projector.usable record = .ok true ∧ ¬FoundUnchanged g t.nodeLabel record ∧
    skips env g t.nodeLabel [record] record ≠ true ∧ ¬Raises (oneRow env t record) ∧
    ¬Raises ((writerOf env t).projector.row record) ∧ FieldsAgree env g t record)

section Agree

variable {env : Env} {t : DataType} {g : Graph} {record : PyValue}

/-- Two rows of a record leave the same graph exactly where the fields agree. -/
theorem write_eq_iff {r r' : RowOf t} (hone : oneRow env t record = .ok r)
    (hrow : (writerOf env t).projector.row record = .ok r') :
    (writerOf env t).projector.write [r] g = (writerOf env t).projector.write [r'] g ↔
      FieldsAgree env g t record := by
  cases t with
  | artists => exact artistWrites_iff hone hrow
  | labels => exact labelWrites_iff hone hrow
  | masters => exact masterWrites_iff hone hrow
  | releases => exact releaseWrites_iff hone hrow

/-- A release with the catalogue number of its label. -/
def cataloguedRelease : PyValue :=
  .obj [("id", .str "1"), ("title", .str "Release"), ("sha256", .str "r"),
    ("labels", .arr [.obj [("id", .str "5"), ("name", .str "Warp"), ("catno", .str "WAP 1")]])]

end Agree

end Graphinator
