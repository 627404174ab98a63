import CapabilityFlow.Analysis
import CapabilityFlow.Batch
import CapabilityFlow.Codec.Diagnostic
import CapabilityFlow.Codec.MethodBody
import CapabilityFlow.Json
import CapabilityFlow.Json.Decode

namespace CapabilityFlow

namespace Config

def encode (config : Config) : Json :=
  .obj [("skip_compiler_generated", .bool config.skipGenerated),
    ("threads", match config.threads with
      | none => .null
      | some n => .nat n.toNat),
    ("suppressed", .arr (config.suppressed.map .str)), ("fail_fast", .bool config.failFast)]

def decode : Decoder Config :=
  ((Fields.optional "skip_compiler_generated" true .bool).and
    ((Fields.optional "threads" none (.option .word64)).and
      ((Fields.optional "suppressed" [] (.list .text)).and
        (.optional "fail_fast" false .bool)))).decodeAs
    fun (skipGenerated, threads, suppressed, failFast) =>
      ⟨skipGenerated, threads, suppressed, failFast⟩

end Config

namespace SiteOwner

def encode : SiteOwner → Json
  | .member method => .obj [("Member", .str method)]
  | .type name => .obj [("Type", .str name)]

def decode : Decoder SiteOwner := Variant.decode [
  .of "Member" .member .text,
  .of "Type" .type .text]

end SiteOwner

namespace InstantiationSite

def encode (s : InstantiationSite) : Json :=
  .obj [("owner", s.owner.encode), ("instantiation", s.instantiation.encode),
    ("location", s.location.encode)]

def decode : Decoder InstantiationSite :=
  ((Fields.required "owner" SiteOwner.decode).and
    ((Fields.required "instantiation" Instantiation.decode).and
      (.optional "location" {} Location.decode))).decodeAs
    fun (owner, instantiation, location) => ⟨owner, instantiation, location⟩

end InstantiationSite

namespace DeclarationSite

def encode : DeclarationSite → Json
  | .field => .str "Field"
  | .property => .str "Property"
  | .returnValue => .str "ReturnValue"
  | .parameter owner => .obj [("Parameter", .obj [("method", .str owner)])]
  | .method => .str "Method"

def decode : Decoder DeclarationSite := Variant.decode [
  .unit "Field" .field,
  .unit "Property" .property,
  .unit "ReturnValue" .returnValue,
  .of "Parameter" .parameter ((Fields.required "method" .text).decode),
  .unit "Method" .method]

end DeclarationSite

namespace Declaration

def encode (d : Declaration) : Json :=
  .obj [("name", .str d.name), ("site", d.site.encode), ("capabilities", d.capabilities.encode),
    ("carries_type_or_string", .bool d.holdsType), ("location", d.location.encode)]

def decode : Decoder Declaration :=
  ((Fields.required "name" .text).and
    ((Fields.required "site" DeclarationSite.decode).and
      ((Fields.required "capabilities" Capabilities.decode).and
        ((Fields.required "carries_type_or_string" .bool).and
          (.optional "location" {} Location.decode))))).decodeAs
    fun (name, site, capabilities, holdsType, location) =>
      ⟨name, site, capabilities, holdsType, location⟩

end Declaration

namespace Declarations

def encode (d : Declarations) : Json :=
  .obj [("sites", .arr (d.sites.map InstantiationSite.encode)),
    ("declarations", .arr (d.declarations.map Declaration.encode))]

def decode : Decoder Declarations :=
  ((Fields.optional "sites" [] (.list InstantiationSite.decode)).and
    (.optional "declarations" [] (.list Declaration.decode))).decodeAs
    fun (sites, declarations) => ⟨sites, declarations⟩

end Declarations

def Exemption.name : Exemption → String
  | .declared => "RequiresUnreferencedCode"
  | .async => "Async"
  | .generated => "CompilerGenerated"

def Outcome.entries : Outcome → List (String × Json)
  | .completed diagnostics suppressed =>
    [("status", .str "completed"), ("diagnostics", .arr (diagnostics.map Diagnostic.encode)),
      ("suppressed", .nat suppressed)]
  | .exempt reason => [("status", .str "exempt"), ("reason", .str reason.name)]
  | .aborted violation => [("status", .str "aborted"), ("error", .str violation.message)]
  | .cancelled => [("status", .str "cancelled")]

def MethodReport.encode (r : MethodReport) : Json :=
  .obj (("method", .str r.method) :: r.outcome.entries)

namespace BatchReport

def encode (r : BatchReport) : Json :=
  .obj [("units", .arr (r.methods.map MethodReport.encode))]

def json (r : BatchReport) : String := r.encode.pretty

end BatchReport

def SiteFailure.encode (f : SiteFailure) : Json :=
  .obj [("index", .nat f.index), ("error", .str f.violation.message)]

namespace DeclarationReport

def encode (r : DeclarationReport) : Json :=
  .obj [("diagnostics", .arr (r.diagnostics.map Diagnostic.encode)),
    ("suppressed", .nat r.suppressed), ("aborted", .arr (r.aborted.map SiteFailure.encode)),
    ("cancelled", .nat r.cancelled)]

def json (r : DeclarationReport) : String := r.encode.pretty

end DeclarationReport

end CapabilityFlow
