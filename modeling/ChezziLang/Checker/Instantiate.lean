/-
  Method signatures on a receiver: `instantiate_method` of `checker/ty_util.rs`.

  The receiver's type arguments replace the parameters of the type that declares the method.
  They may mention a parameter that has the name of one of the method's own; those are renamed.
  A new name avoids the own parameters and what the arguments mention, but it may be the name
  of a parameter that is replaced.

  Proved:
  * `freshenLoop_spec`: what is renamed, and to what.
  * `subst_subst`: two substitutions in a row are one.
  * `instantiateMethod_avoids_capture`: where the signature mentions only its own parameters and
    replaced ones, instantiating is simultaneous substitution without capture;
    `fresh_name_in_signature` is what happens otherwise.
-/
import ChezziLang.Checker.Generics
import ChezziLang.Lib.Roster
import Mathlib.Data.Set.Finite.Basic

namespace ChezziLang.Checker

open List
open Ty (Occurs kids plain)

/-! ## Model -/

structure TyBound where
  name : String
  args : List Ty

structure TyParam where
  name : String
  bounds : List TyBound

structure FnSig where
  params : List Ty
  ret : Ty
  typeParams : List TyParam
  whereBounds : List TyParam
  witnessParams : List String

/-- `subst_ty_params`. -/
def substTyParams (tps : List TyParam) (map : String → Option Ty) : List TyParam :=
  tps.map fun tp => ⟨tp.name, tp.bounds.map fun b => ⟨b.name, b.args.map (subst map)⟩⟩

/-- `subst_sig`. -/
def substSig (sig : FnSig) (map : String → Option Ty) : FnSig where
  params := sig.params.map (subst map)
  ret := subst map sig.ret
  typeParams := substTyParams sig.typeParams map
  whereBounds := substTyParams sig.whereBounds map
  witnessParams := sig.witnessParams

theorem exists_fresh (base) (taken : List String) :
    ∃ n : Nat, base ++ toString (n + 1) ∉ taken := by
  have hinj : Function.Injective fun n : Nat => base ++ toString (n + 1) := by
    intro a b h
    have hdigits := congrArg String.toList ((String.append_right_inj base).mp h)
    simpa using congrArg (Nat.ofDigitChars 10 · 0) hdigits
  obtain ⟨_, ⟨n, rfl⟩, hn⟩ :=
    (Set.infinite_range_of_injective hinj).exists_notMem_finset taken.toFinset
  exact ⟨n, fun h => hn (mem_toFinset.mpr h)⟩

/-- `fresh_param_name`. -/
def freshParamName (base : String) (taken : List String) : String :=
  base ++ toString (Nat.find (exists_fresh base taken) + 1)

/-- The loop of `freshen_params`; an entry replaces an earlier one for its name. -/
def freshenLoop (clash : List String) : List String → List String → List (String × String)
  | _, [] => []
  | taken, n :: tps =>
    if n ∈ clash then
      let new := freshParamName n taken
      freshenLoop clash (new :: taken) tps ++ [(n, new)]
    else freshenLoop clash taken tps

/-- `freshen_params`, by the names of the parameters. -/
def freshenParams (tps clash : List String) : List (String × String) :=
  freshenLoop clash (clash ++ tps) tps

/-- The type parameters that the method declares. -/
def FnSig.own (sig : FnSig) : List String := sig.typeParams.map TyParam.name

/-- The end of `instantiate_method`: one substitution, with the own parameters renamed. -/
def substRenamed (sig : FnSig) (map : String → Option Ty) (rename : String → String) : FnSig :=
  { substSig sig map with
    typeParams := (substTyParams sig.typeParams map).map fun tp => ⟨rename tp.name, tp.bounds⟩
    witnessParams := sig.witnessParams.map rename }

section

variable (sig : FnSig) (recvMap : List (String × Ty))

/-- `free` in `instantiate_method`: the parameters that the receiver's arguments mention. -/
def freeParams : List String :=
  recvMap.foldl (fun free kv => tyCollectParams none kv.2 free) []

/-- `ren` in `instantiate_method`. -/
def ren : List (String × String) := freshenParams sig.own (freeParams recvMap)

/-- `rename` in `instantiate_method`. -/
def rename (n : String) : String := ((ren sig recvMap).lookup n).getD n

/-- `instantiate_method`. -/
def instantiateMethod : FnSig :=
  if ren sig recvMap = [] then substSig sig fun n => recvMap.lookup n
  else
    substRenamed sig (fun n => (((ren sig recvMap).lookup n).map .param).or (recvMap.lookup n))
      (rename sig recvMap)

end

variable {clash tps taken : List String} {n : String} {sig : FnSig} {recvMap : List (String × Ty)}
  {θ σ ρ : String → Option Ty} {f : String → String} {t : Ty} {τ : String → Ty}

/-! ## New names -/

theorem freshenLoop_spec : (∀ kx ∈ freshenLoop clash taken tps, kx.1 ∈ tps ∧ kx.2 ∉ taken) ∧
    ((freshenLoop clash taken tps).map Prod.snd).Nodup ∧
    ∀ n ∈ tps, n ∈ clash → n ∈ (freshenLoop clash taken tps).map Prod.fst := by
  induction tps generalizing taken with
  | nil => simp [freshenLoop]
  | cons n tps ih =>
    rw [freshenLoop]
    split
    case isTrue hn =>
      have hfresh : freshParamName n taken ∉ taken := Nat.find_spec (exists_fresh n taken)
      obtain ⟨hmem, hnodup, hall⟩ := @ih (freshParamName n taken :: taken)
      refine ⟨fun kx hkx => ?_, ?_, fun k hk hclash => ?_⟩
      · rcases mem_append.mp hkx with hkx | hkx
        · exact (hmem kx hkx).imp (mem_cons_of_mem n) fun h hmem => h (.tail _ hmem)
        · rw [mem_singleton.mp hkx]
          exact ⟨mem_cons_self, hfresh⟩
      · rw [map_append, map_singleton, nodup_append_comm, singleton_append, nodup_cons]
        refine ⟨fun h => ?_, hnodup⟩
        obtain ⟨kx, hkx, heq⟩ := mem_map.mp h
        exact (hmem kx hkx).2 (heq ▸ mem_cons_self)
      · rw [map_append, map_singleton, mem_append, mem_singleton]
        exact (mem_cons.mp hk).symm.imp_left fun hk => hall k hk hclash
    case isFalse hn =>
      obtain ⟨hmem, hnodup, hall⟩ := @ih taken
      refine ⟨fun kx hkx => (hmem kx hkx).imp_left (mem_cons_of_mem n), hnodup, ?_⟩
      intro k hk hclash
      refine hall k ((mem_cons.mp hk).resolve_left ?_) hclash
      rintro rfl
      exact hn hclash

/-- An own parameter keeps its name if no argument mentions it, and gets a new one if not. -/
theorem rename_cases (recvMap) (hn : n ∈ sig.own) :
    (ren sig recvMap).lookup n = none ∧ rename sig recvMap n = n ∧ n ∉ freeParams recvMap ∨
      (n, rename sig recvMap n) ∈ ren sig recvMap ∧
        rename sig recvMap n ∉ freeParams recvMap ++ sig.own := by
  unfold rename
  cases hl : (ren sig recvMap).lookup n with
  | none =>
    refine .inl ⟨rfl, rfl, fun hfree => ?_⟩
    have hren : n ∈ (ren sig recvMap).map Prod.fst := freshenLoop_spec.2.2 n hn hfree
    obtain ⟨kx, hkx, rfl⟩ := mem_map.mp hren
    simpa using lookup_eq_none_iff.mp hl kx hkx
  | some x =>
    have hmem := Lib.Roster.mem_of_lookup hl
    exact .inr ⟨hmem, (freshenLoop_spec.1 _ hmem).2⟩

/-! ## Substitutions in a row -/

theorem subst_none (t) : subst (fun _ => none) t = t := by
  induction t using Ty.induct_kids with
  | h t ih =>
    have hmap (ts : List Ty) (h : ∀ u ∈ ts, subst (fun _ => none) u = u) :
        ts.map (fun u => subst (fun _ => none) u) = ts := (map_congr_left h).trans (map_id ts)
    replace ih := fun u hu => ih u (t.plain_subset hu)
    cases t with
    | tuple ts | struct n ts | enum n ts | protocol n ts => rw [subst, hmap ts ih]
    | func params ret labels v =>
      simp only [plain, forall_mem_append, forall_mem_singleton] at ih
      rw [subst, hmap _ ih.1, ih.2]
    | list | set | option | channel | shared | atomic | rwShared | map | result =>
      simp only [plain, kids, forall_mem_cons] at ih
      simp only [subst, ih]
    | _ => simp [subst]

/-- The second substitution works on what the first puts for the parameters. -/
theorem subst_subst (t)
    (h : ∀ n, Occurs plain (.param n) t → subst θ ((σ n).getD (.param n)) = (ρ n).getD (.param n)) :
    subst θ (subst σ t) = subst ρ t := by
  induction t using Ty.induct_kids with
  | h t ih =>
    replace ih := fun u (hu : u ∈ t.plain) =>
      ih u (t.plain_subset hu) fun n hn => h n (.under hu hn)
    have hmap (ts : List Ty) (h : ∀ u ∈ ts, subst θ (subst σ u) = subst ρ u) :
        (ts.map fun u => subst σ u).map (fun u => subst θ u) = ts.map fun u => subst ρ u := by
      rw [map_map]
      exact map_congr_left h
    cases t with
    | param n =>
      rw [subst, subst]
      exact h n .here
    | tuple ts | struct n ts | enum n ts | protocol n ts => simp only [subst, hmap ts ih]
    | func params ret labels v =>
      simp only [plain, forall_mem_append, forall_mem_singleton] at ih
      simp only [subst, hmap _ ih.1, ih.2]
    | list | set | option | channel | shared | atomic | rwShared | map | result =>
      simp only [plain, kids, forall_mem_cons] at ih
      simp only [subst, ih]
    | _ => simp [subst]

theorem subst_congr (h : ∀ n, (σ n).getD (.param n) = (ρ n).getD (.param n)) :
    subst σ = subst ρ := by
  funext t
  rw [← subst_none (subst σ t)]
  refine subst_subst t fun n _ => ?_
  rw [subst_none]
  exact h n

theorem subst_id (h : ∀ n, Occurs plain (.param n) t → θ n = none) : subst θ t = t := by
  have hone := @subst_subst θ (fun _ => none) (fun _ => none) t fun n hn => by simp [subst, h n hn]
  rwa [subst_none] at hone

/-! ## Without capture -/

namespace FnSig

section

variable (sig : FnSig)

/-- The types that stand in a signature. -/
def types : List Ty :=
  sig.params ++ sig.ret ::
    (sig.typeParams ++ sig.whereBounds).flatMap fun tp => tp.bounds.flatMap TyBound.args

section

variable (recvMap : List (String × Ty)) (f : String → String)

/-- The signature with the receiver's arguments for the parameters that are not its own, which
    are named by `f`. -/
def instantiateAs : FnSig :=
  substRenamed sig (fun n => if n ∈ sig.own then some (.param (f n)) else recvMap.lookup n) f

/-- `f` keeps the own parameters apart from each other and from what the arguments mention. -/
structure Fresh : Prop where
  inj : ∀ n ∈ sig.own, ∀ m ∈ sig.own, f n = f m → n = m
  free : ∀ n ∈ sig.own, ∀ kv ∈ recvMap, ¬ Occurs plain (.param (f n)) kv.2

end

/-- `θ` puts `τ n` for the own parameter `n`, which is named `f n`, and leaves the rest. -/
def Assigns (f : String → String) (τ : String → Ty) (θ : String → Option Ty) : Prop :=
  (∀ n ∈ sig.own, θ (f n) = some (τ n)) ∧ ∀ m, (∀ n ∈ sig.own, f n ≠ m) → θ m = none

/-- Every parameter that the signature mentions is its own or replaced, and none is both. -/
structure Scoped (recvMap : List (String × Ty)) : Prop where
  own : ∀ n ∈ sig.own, recvMap.lookup n = none
  mentioned : ∀ t ∈ sig.types, ∀ n, Occurs plain (.param n) t →
    n ∈ sig.own ∨ (recvMap.lookup n).isSome

end

end FnSig

theorem rename_fresh : sig.Fresh recvMap (rename sig recvMap) where
  inj n hn m hm heq := by
    rcases rename_cases recvMap hn with ⟨-, hn', -⟩ | ⟨hl, hout⟩ <;>
      rcases rename_cases recvMap hm with ⟨-, hm', -⟩ | ⟨hl', hout'⟩
    · rw [← hn', heq, hm']
    · rw [← heq, hn'] at hout'
      exact absurd (mem_append_right _ hn) hout'
    · rw [heq, hm'] at hout
      exact absurd (mem_append_right _ hm) hout
    · exact congrArg Prod.fst (inj_on_of_nodup_map freshenLoop_spec.2.1 hl hl' heq)
  free n hn kv hkv ho := by
    have hmem : rename sig recvMap n ∈ freeParams recvMap := by
      rw [freeParams, mem_foldl_iff fun kv _ out => mem_tyCollectParams kv.2 out]
      exact .inr ⟨kv, hkv, ho⟩
    rcases rename_cases recvMap hn with ⟨-, hn', hfree⟩ | ⟨-, hout⟩
    · exact hfree (hn' ▸ hmem)
    · exact hout (mem_append_left _ hmem)

theorem instantiateMethod_eq (h : sig.Scoped recvMap) :
    instantiateMethod sig recvMap = sig.instantiateAs recvMap (rename sig recvMap) := by
  -- the map of the code gives every parameter what the one of `instantiateAs` gives it
  have hmap : subst (fun n => (((ren sig recvMap).lookup n).map .param).or (recvMap.lookup n)) =
      subst fun n => if n ∈ sig.own then some (.param (rename sig recvMap n))
        else recvMap.lookup n := by
    refine subst_congr fun n => ?_
    cases hl : (ren sig recvMap).lookup n with
    | some x =>
      have hn : n ∈ sig.own := (freshenLoop_spec.1 _ (Lib.Roster.mem_of_lookup hl)).1
      simp [hn, rename, hl]
    | none =>
      by_cases hn : n ∈ sig.own
      · simp [hn, rename, hl, h.own n hn]
      · simp [hn]
  rw [FnSig.instantiateAs, instantiateMethod]
  split
  case isTrue hnil =>
    have hname : rename sig recvMap = id := by
      funext n
      simp [rename, hnil]
    simp only [hnil, lookup_nil, Option.map_none, Option.none_or] at hmap
    simp [substRenamed, substSig, substTyParams, hmap, hname]
  case isFalse => simp only [substRenamed, substSig, substTyParams, hmap]

/-- An instance of the result is an instance of the signature. -/
theorem instantiateAs_instance (h : sig.Scoped recvMap) (hf : sig.Fresh recvMap f)
    (hθ : sig.Assigns f τ θ) : (sig.instantiateAs recvMap f).types.map (subst θ) =
      sig.types.map (subst fun n => if n ∈ sig.own then some (τ n) else recvMap.lookup n) := by
  have htypes : (sig.instantiateAs recvMap f).types = sig.types.map
      (subst fun n => if n ∈ sig.own then some (.param (f n)) else recvMap.lookup n) := by
    simp [FnSig.types, FnSig.instantiateAs, substRenamed, substSig, substTyParams, flatMap_map,
      map_flatMap]
  rw [htypes, map_map]
  refine map_congr_left fun t ht => subst_subst t fun n hn => ?_
  by_cases hown : n ∈ sig.own
  · simp [hown, subst, hθ.1 n hown]
  obtain ⟨v, hv⟩ := Option.isSome_iff_exists.mp ((h.mentioned t ht n hn).resolve_left hown)
  simp only [if_neg hown, hv, Option.getD_some]
  refine subst_id fun m hm => hθ.2 m ?_
  rintro k hk rfl
  exact hf.free k hk (n, v) (Lib.Roster.mem_of_lookup hv) hm

theorem FnSig.Fresh.exists_assigns (hf : sig.Fresh recvMap f) (τ) : ∃ θ, sig.Assigns f τ θ := by
  refine ⟨fun m => (sig.own.find? (f · = m)).map τ, fun n hn => ?_, fun m hm => ?_⟩
  · cases hk : sig.own.find? (f · = f n) with
    | none => simpa using find?_eq_none.mp hk n hn
    | some k =>
      have heq := hf.inj k (mem_of_find?_eq_some hk) n hn (by simpa using find?_some hk)
      simp [hk, heq]
  · simpa using hm

/-- **Instantiating a method is substitution without capture.**  Let a signature mention only its
    own parameters and the receiver's, and let none be both.  Then the own parameters get names
    apart from each other and from what the arguments mention.  For these and for any other such
    names, the instances of the result are those of the signature under the simultaneous
    substitution, so that the choice of the names does not matter. -/
theorem instantiateMethod_avoids_capture {sig : FnSig} {recvMap : List (String × Ty)}
    (h : sig.Scoped recvMap) :
    ∃ f, sig.Fresh recvMap f ∧ (∀ n ∈ sig.own, f n = n ∨ f n ∉ sig.own) ∧
      instantiateMethod sig recvMap = sig.instantiateAs recvMap f ∧
      ∀ g, sig.Fresh recvMap g → ∀ τ, ∃ θ, sig.Assigns g τ θ ∧
        (sig.instantiateAs recvMap g).types.map (subst θ) =
          sig.types.map (subst fun n => if n ∈ sig.own then some (τ n) else recvMap.lookup n) := by
  refine ⟨_, rename_fresh, fun n hn => ?_, instantiateMethod_eq h, fun g hg τ => ?_⟩
  · rcases rename_cases recvMap hn with ⟨-, hn', -⟩ | ⟨-, hout⟩
    · exact .inl hn'
    · exact .inr fun hmem => hout (mem_append_right _ hmem)
  · obtain ⟨θ, hθ⟩ := hg.exists_assigns τ
    exact ⟨θ, hθ, instantiateAs_instance h hg hθ⟩

/-- `pair[U](U) -> U1`. -/
def pairSig : FnSig := ⟨[.param "U"], .param "U1", [⟨"U", []⟩], [], []⟩

/-- As a method of a type with the parameter `U1`, on a receiver that has `U` for it. -/
theorem pair_avoids_capture : ∃ f, pairSig.Fresh [("U1", .param "U")] f ∧
    instantiateMethod pairSig [("U1", .param "U")] =
      pairSig.instantiateAs [("U1", .param "U")] f := by
  have h : pairSig.Scoped [("U1", .param "U")] := by
    refine ⟨by simp [FnSig.own, pairSig], fun t ht n hn => ?_⟩
    simp only [FnSig.types, pairSig, flatMap_cons, flatMap_nil, append_nil, singleton_append,
      mem_cons, not_mem_nil, or_false] at ht
    rcases ht with rfl | rfl <;> simp [occurs_param.mp hn, FnSig.own, pairSig]
  obtain ⟨f, hf, -, heq, -⟩ := instantiateMethod_avoids_capture h
  exact ⟨f, hf, heq⟩

/-- There `U` is renamed to `U1`, which stands in the signature; and on a receiver that has no
    argument for `U1`, it is captured. -/
theorem fresh_name_in_signature :
    (instantiateMethod pairSig [("U1", .param "U")]).own = ["U1"] ∧
      .param "U1" ∈ pairSig.types ∧ (instantiateMethod pairSig [("T", .param "U")]).own = ["U1"] ∧
      (instantiateMethod pairSig [("T", .param "U")]).ret = .param "U1" := by
  have hfresh : freshParamName "U" ["U", "U"] = "U1" := by
    rw [freshParamName, (Nat.find_eq_zero _).mpr (by decide)]
    decide
  have hren (k : String) : ren pairSig [(k, .param "U")] = [("U", "U1")] := by
    simp [ren, freshenParams, freshenLoop, freeParams, tyCollectParams, FnSig.own, pairSig, hfresh]
  have hrename (k : String) :
      rename pairSig [(k, .param "U")] = fun n => ([("U", "U1")].lookup n).getD n := by
    funext n
    rw [rename, hren]
  simp only [instantiateMethod, hren, hrename]
  simp [substRenamed, substSig, substTyParams, FnSig.own, FnSig.types, pairSig, subst, lookup_cons]

end ChezziLang.Checker
