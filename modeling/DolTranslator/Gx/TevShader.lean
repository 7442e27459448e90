import DolTranslator.Gx.Views

/-!
# The TEV as GLSL

A configuration of up to sixteen stages as the text of a fragment shader, and the byte string that
names the configuration in the cache of shaders.

* `Text`   the generator's state is its flag `ok`, cleared where the configuration names
  something out of range;
* `Indirect`, `ColorArg`, `AlphaArg`, `Op`, `Clamp`   the pieces of a stage;
* `Run`   the shader; `TevFragmentGlsl`;
* `TevConfigKey`   the key.
-/

namespace DolTranslator.Gx

namespace TevGlsl

abbrev Text := StateM Bool String

def unknown (s : String) : Text := do
  set false
  return s

def kPrelude : String :=
  String.join [
    "#version 460\n",
    "\n",
    "layout (std140, binding = 0) uniform TevBlock \x7b\n",
    "    vec4 tevreg[4];\n",
    "    vec4 kcolor[4];\n",
    "    vec4 fogColor;   // (w: the destination alpha)\n",
    "    vec4 fogParams;  // A, C, B's magnitude, B's shift\n",
    "    ivec4 indMtx[6]; // the indirect matrices: two rows each, w the shift\n",
    "\x7d tev;\n",
    "\n",
    "// an indirect matrix's product, shifted by its scale (Dolphin's indtevtrans)\n",
    "ivec2 tev_ind_scale(ivec2 v, int shift) \x7b return shift >= 0 ? v >> shift : v <<",
    " (-shift); \x7d\n",
    "int tev_idot(ivec3 a, ivec3 b) \x7b return a.x * b.x + a.y * b.y + a.z * b.z; \x7d\n",
    "\n",
    "float tev_wrap(float v) \x7b float s = v * 255.0; return (s - floor(s / 256.0) * 256.0)",
    " / 255.0; \x7d\n",
    "vec3 tev_wrap(vec3 v) \x7b vec3 s = v * 255.0; return (s - floor(s / 256.0) * 256.0) /",
    " 255.0; \x7d\n",
    "\n",
    "// `alpha`: the alpha combiner, which rounds the other way about - colour adds\n",
    "// the rounding term unless the scale halves, alpha only when it halves\n",
    "// (Dolphin's hardware-tested tev_lerp_bias)\n",
    "int tev_regular(int a, int b, int c, int d, int bias, int scale, bool sub, bool alpha) \x7b\n",
    "    int d_part = d + bias;\n",
    "    int lerp_part = (a << 8) + (b - a) * (c + (c >> 7));\n",
    "    if (scale == 1) \x7b d_part <<= 1; lerp_part <<= 1; \x7d\n",
    "    if (scale == 2) \x7b d_part <<= 2; lerp_part <<= 2; \x7d\n",
    "    if ((scale == 3) == alpha) \x7b lerp_part += sub ? 127 : 128; \x7d\n",
    "    int lerp = lerp_part >> 8;\n",
    "    int result = sub ? d_part - lerp : d_part + lerp;\n",
    "    if (scale == 3) \x7b result >>= 1; \x7d\n",
    "    return result;\n",
    "\x7d\n",
    "\n",
    "int tev_byte(float v) \x7b return int(round(v * 255.0)); \x7d\n",
    "\n",
    "// the alpha combiner's (a scalar) and the colour combiner's (a vec3)\n",
    "float tev_regular(float a, float b, float c, float d, int bias, int scale, bool sub) \x7b\n",
    "    return float(tev_regular(tev_byte(a), tev_byte(b), tev_byte(c), tev_byte(d),",
    " bias, scale, sub, true)) / 255.0;\n",
    "\x7d\n",
    "\n",
    "float tev_regular_color(float a, float b, float c, float d, int bias, int scale,",
    " bool sub) \x7b\n",
    "    return float(tev_regular(tev_byte(a), tev_byte(b), tev_byte(c), tev_byte(d),",
    " bias, scale, sub, false)) / 255.0;\n",
    "\x7d\n",
    "\n",
    "vec3 tev_regular(vec3 a, vec3 b, vec3 c, vec3 d, int bias, int scale, bool sub) \x7b\n",
    "    return vec3(tev_regular_color(a.r, b.r, c.r, d.r, bias, scale, sub),\n",
    "                tev_regular_color(a.g, b.g, c.g, d.g, bias, scale, sub),\n",
    "                tev_regular_color(a.b, b.b, c.b, d.b, bias, scale, sub));\n",
    "\x7d\n",
    "\n",
    "float tev_r8(vec3 v) \x7b return round(v.r * 255.0); \x7d\n",
    "float tev_gr16(vec3 v) \x7b return round(dot(v.rg * 255.0, vec2(1.0, 256.0))); \x7d\n",
    "float tev_bgr24(vec3 v) \x7b return round(dot(v.rgb * 255.0, vec3(1.0, 256.0,",
    " 65536.0))); \x7d\n",
    "\n",
    "layout (location = 0) in vec4 vColor0;\n",
    "layout (location = 1) in vec4 vColor1;\n",
    "layout (location = 0) out vec4 outColor;\n"]

def Num (v : Nat) : String := toString v

def SwapLetter (c : Nat) : String :=
  if c = 0 then "r" else if c = 1 then "g" else if c = 2 then "b" else "a"

def Swizzle3 (s : TevSwap) : String := SwapLetter s.r ++ SwapLetter s.g ++ SwapLetter s.b

section Generator

variable (config : TevConfig)

def HasTexture (stage : TevStage) : Bool :=
  decide (stage.texMap < 8 ∧ stage.texCoord < 8 ∧ stage.texCoord < config.texCoordCount)

def HasIndStage (i : Nat) : Bool :=
  decide (i < config.indStageCount ∧ (config.indStages i).texCoord < config.texCoordCount)

/-! ## indirect textures -/

def kFmtShift (fmt : Nat) : String := ["0", "3", "4", "5"].getD fmt ""

def kBiasAdd (fmt : Nat) : String := ["-128", "1", "1", "1"].getD fmt ""

def kWrap (w : Nat) : String :=
  ["(256 << 7)", "(128 << 7)", "(64 << 7)", "(32 << 7)", "(16 << 7)"].getD w ""

def wrap (n : String) (w : Nat) (c : String) : String :=
  if w = 0 then "fixuv" ++ n ++ "." ++ c
  else if w ≥ 6 then "0"
  else "(fixuv" ++ n ++ "." ++ c ++ " & (" ++ kWrap (w - 1) ++ " - 1))"

/-- the offset that the indirect texel gives through a matrix, or the dynamic forms of it -/
def indirectOffset (n : String) (bt fmt bias mtxIndex mtxId : Nat) : String :=
  let row := Num (2 * (mtxIndex - 1))
  let row1 := Num (2 * (mtxIndex - 1) + 1)
  "    ivec3 indcrd" ++ n ++ " = iindtex" ++ Num bt ++ " >> " ++ kFmtShift fmt ++ ";\n" ++
  String.join ((List.range 3).map fun c =>
    if bias.testBit c then
      "    indcrd" ++ n ++ "." ++ ["x", "y", "z"].getD c "" ++ " += " ++ kBiasAdd fmt ++ ";\n"
    else "") ++
  (if mtxId = 0 then
    "    indtrans" ++ n ++ " = ivec2(tev_idot(tev.indMtx[" ++ row ++ "].xyz, indcrd" ++ n ++
      "), tev_idot(tev.indMtx[" ++ row1 ++ "].xyz, indcrd" ++ n ++ ")) >> 3;\n"
  else
    "    indtrans" ++ n ++ " = (fixuv" ++ n ++ " * indcrd" ++ n ++
      (if mtxId = 1 then ".xx" else ".yy") ++ ") >> 8;\n") ++
  "    indtrans" ++ n ++ " = tev_ind_scale(indtrans" ++ n ++ ", tev.indMtx[" ++ row ++ "].w);\n"

/-- a stage's indirect op, and its texture sampled where it lands -/
def Indirect (stage : TevStage) (i : Nat) : String :=
  let field (shift size : Nat) : Nat := (stage.ind >>> shift) % 2 ^ size
  let bt := field 0 2
  let mtxIndex := field 9 2
  let n := Num i
  let m := "texMap" ++ Num stage.texMap
  let tc := "vTexCoord" ++ Num stage.texCoord
  "    vec2 dim" ++ n ++ " = vec2(textureSize(" ++ m ++ ", 0)) * 128.0;\n" ++
  "    ivec2 fixuv" ++ n ++ " = ivec2(floor(" ++ tc ++ ".xy / " ++ tc ++ ".z * dim" ++ n ++ "));\n" ++
  "    ivec2 indtrans" ++ n ++ " = ivec2(0);\n" ++
  (if HasIndStage config bt ∧ mtxIndex ≠ 0 then
    indirectOffset n bt (field 2 2) (field 4 3) mtxIndex (field 11 2) else "") ++
  "    ivec2 wrapped" ++ n ++ " = ivec2(" ++ wrap n (field 13 3) "x" ++ ", " ++
    wrap n (field 16 3) "y" ++ ");\n" ++
  "    tevcoord = " ++ (if field 20 1 ≠ 0 then "tevcoord + " else "") ++ "wrapped" ++ n ++
    " + indtrans" ++ n ++ ";\n" ++
  "    tevcoord = (tevcoord << 8) >> 8;\n" ++
  "    vec4 sampled" ++ n ++ " = texture(" ++ m ++ ", vec2(tevcoord) / dim" ++ n ++ ");\n"

/-! ## arguments -/

/-- the texture of a stage that has none: 0 with no texture coordinates at all, else 1 -/
def NoTexture : String := if config.texCoordCount = 0 then "0.0" else "1.0"

def Ras (stage : TevStage) : String := if stage.channel = 1 then "vColor1" else "vColor0"

def RasZero (stage : TevStage) : Bool := decide (stage.channel ≠ 0 ∧ stage.channel ≠ 1)

def kComp (i : Nat) : String := ["r", "g", "b", "a"].getD i ""

def KColor (sel : Nat) : Text :=
  if sel ≤ 7 then return "vec3(" ++ Num (8 - sel) ++ ".0 / 8.0)"
  else if 0x0C ≤ sel ∧ sel ≤ 0x0F then return "tev.kcolor[" ++ Num (sel - 0x0C) ++ "].rgb"
  else if 0x10 ≤ sel ∧ sel ≤ 0x1F then
    return "vec3(tev.kcolor[" ++ Num (sel % 4) ++ "]." ++ kComp ((sel - 0x10) / 4) ++ ")"
  else unknown "vec3(0.0)"

def KAlpha (sel : Nat) : Text :=
  if sel ≤ 7 then return "(" ++ Num (8 - sel) ++ ".0 / 8.0)"
  else if 0x10 ≤ sel ∧ sel ≤ 0x1F then
    return "tev.kcolor[" ++ Num (sel % 4) ++ "]." ++ kComp ((sel - 0x10) / 4)
  else unknown "0.0"

def ColorArg (arg i : Nat) (stage : TevStage) : Text :=
  let tex := config.swapTable (stage.texSwap % 4)
  let ras := config.swapTable (stage.rasSwap % 4)
  match arg with
  | 0 => return "prev.rgb"
  | 1 => return "vec3(prev.a)"
  | 2 => return "reg0.rgb"
  | 3 => return "vec3(reg0.a)"
  | 4 => return "reg1.rgb"
  | 5 => return "vec3(reg1.a)"
  | 6 => return "reg2.rgb"
  | 7 => return "vec3(reg2.a)"
  | 8 => return (
    if HasTexture config stage then "sampled" ++ Num i ++ "." ++ Swizzle3 tex
    else "vec3(" ++ NoTexture config ++ ")")
  | 9 => return (
    if HasTexture config stage then "vec3(sampled" ++ Num i ++ "." ++ SwapLetter tex.a ++ ")"
    else "vec3(" ++ NoTexture config ++ ")")
  | 10 => return (if RasZero stage then "vec3(0.0)" else Ras stage ++ "." ++ Swizzle3 ras)
  | 11 => return (
    if RasZero stage then "vec3(0.0)"
    else "vec3(" ++ Ras stage ++ "." ++ SwapLetter ras.a ++ ")")
  | 12 => return "vec3(1.0)"
  | 13 => return "vec3(0.5)"
  | 14 => KColor stage.kcolorSel
  | 15 => return "vec3(0.0)"
  | _ => unknown "vec3(0.0)"

def AlphaArg (arg i : Nat) (stage : TevStage) : Text :=
  let tex := config.swapTable (stage.texSwap % 4)
  let ras := config.swapTable (stage.rasSwap % 4)
  match arg with
  | 0 => return "prev.a"
  | 1 => return "reg0.a"
  | 2 => return "reg1.a"
  | 3 => return "reg2.a"
  | 4 => return (
    if HasTexture config stage then "sampled" ++ Num i ++ "." ++ SwapLetter tex.a
    else NoTexture config)
  | 5 => return (if RasZero stage then "0.0" else Ras stage ++ "." ++ SwapLetter ras.a)
  | 6 => KAlpha stage.kalphaSel
  | 7 => return "0.0"
  | _ => unknown "0.0"

/-! ## combiners -/

def Bias (bias : Nat) : String := if bias = 1 then "128" else if bias = 2 then "-128" else "0"

/-- a combiner's value before its clamp; `vec` for the colour combiner -/
def Op (k : TevCombiner) (a b c d : String) (vec : Bool) (colorA colorB : String) : Text :=
  let zero := if vec then "vec3(0.0)" else "0.0"
  let wrap := "tev_wrap("
  if k.op = 0 ∨ k.op = 1 then do
    if k.bias ≠ 0 ∧ k.bias ≠ 1 ∧ k.bias ≠ 2 then set false
    return "tev_regular(" ++ wrap ++ a ++ "), " ++ wrap ++ b ++ "), " ++ wrap ++ c ++ "), " ++ d ++
      ", " ++ Bias k.bias ++ ", " ++ Num k.scale ++ ", " ++ (if k.op = 1 then "true" else "false") ++
      ")"
  else if 8 ≤ k.op ∧ k.op ≤ 13 then
    -- the alpha combiner compares the colour combiner's A and B here
    let ca := if vec then a else colorA
    let cb := if vec then b else colorB
    let fn := if k.op ≤ 9 then "tev_r8" else if k.op ≤ 11 then "tev_gr16" else "tev_bgr24"
    let rel := if k.op % 2 = 1 then " == " else " > "
    return "((" ++ fn ++ "(" ++ wrap ++ ca ++ ")) " ++ rel ++ fn ++ "(" ++ wrap ++ cb ++ "))) ? " ++
      wrap ++ c ++ ") : " ++ zero ++ ") + " ++ d
  else if k.op = 14 ∨ k.op = 15 then
    let eq := k.op = 15
    if vec then
      return "(vec3(" ++ (if eq then "equal" else "greaterThan") ++ "(round(" ++ wrap ++ a ++
        ") * 255.0), round(" ++ wrap ++ b ++ ") * 255.0))) * " ++ wrap ++ c ++ ")) + " ++ d
    else
      return "((round(" ++ wrap ++ a ++ ") * 255.0)" ++ (if eq then " == " else " > ") ++ "round(" ++
        wrap ++ b ++ ") * 255.0)) ? " ++ wrap ++ c ++ ") : 0.0) + " ++ d
  else unknown zero

def Reg (r : Nat) : String :=
  if r = 1 then "reg0" else if r = 2 then "reg1" else if r = 3 then "reg2" else "prev"

def Clamp (k : TevCombiner) (expr : String) (vec : Bool) : String :=
  let lo := if k.clamp then "0.0" else "(-1024.0 / 255.0)"
  let hi := if k.clamp then "1.0" else "(1023.0 / 255.0)"
  if vec then "clamp(" ++ expr ++ ", vec3(" ++ lo ++ "), vec3(" ++ hi ++ "))"
  else "clamp(" ++ expr ++ ", " ++ lo ++ ", " ++ hi ++ ")"

/-- half of the alpha test, against the final alpha -/
def AlphaHalf (comp ref : Nat) : String :=
  let r := Num ref
  match comp with
  | 0 => "false"
  | 1 => "(alphaTest < " ++ r ++ ")"
  | 2 => "(alphaTest == " ++ r ++ ")"
  | 3 => "(alphaTest <= " ++ r ++ ")"
  | 4 => "(alphaTest > " ++ r ++ ")"
  | 5 => "(alphaTest != " ++ r ++ ")"
  | 6 => "(alphaTest >= " ++ r ++ ")"
  | _ => "true"

/-! ## the shader -/

def samplerUsed (m : Nat) : Bool :=
  (List.range config.stageCount).any (fun i =>
    HasTexture config (config.stages i) && (config.stages i).texMap == m) ||
  (List.range (min config.indStageCount 4)).any (fun i =>
    HasIndStage config i && (config.indStages i).texMap % 8 == m)

def declarations : String :=
  String.join ((List.range config.texCoordCount).map fun n =>
    "layout (location = " ++ Num (2 + n) ++ ") in vec3 vTexCoord" ++ Num n ++ ";\n") ++
  String.join ((List.range 8).map fun m =>
    if samplerUsed config m then
      "layout (binding = " ++ Num m ++ ") uniform sampler2D texMap" ++ Num m ++ ";\n"
    else "")

/-- an indirect stage's sample: the texel's alpha, blue and green -/
def indirectSample (i : Nat) : String :=
  if HasIndStage config i then
    let ind := config.indStages i
    let m := "texMap" ++ Num (ind.texMap % 8)
    let tc := "vTexCoord" ++ Num ind.texCoord
    "    ivec3 iindtex" ++ Num i ++ ";\n    \x7b\n" ++
    "        vec2 dim = vec2(textureSize(" ++ m ++ ", 0)) * 128.0;\n" ++
    "        ivec2 fx = ivec2(floor(" ++ tc ++ ".xy / " ++ tc ++ ".z * dim)) >> ivec2(" ++
      Num ind.scaleS ++ ", " ++ Num ind.scaleT ++ ");\n" ++
    "        vec4 v = texture(" ++ m ++ ", vec2(fx) / dim);\n" ++
    "        iindtex" ++ Num i ++ " = ivec3(round(vec3(v.a, v.b, v.g) * 255.0));\n    \x7d\n"
  else ""

/-- what a stage samples -/
def stageSample (i : Nat) : String :=
  let stage := config.stages i
  if HasTexture config stage then
    if stage.ind ≠ 0 then Indirect config stage i
    else
      let tc := "vTexCoord" ++ Num stage.texCoord
      "    vec4 sampled" ++ Num i ++ " = texture(texMap" ++ Num stage.texMap ++ ", " ++ tc ++
        ".xy / " ++ tc ++ ".z);\n"
  else ""

/-- both combiners read the registers as the stage found them -/
def stageCode (i : Nat) : Text := do
  let stage := config.stages i
  let n := Num i
  let c := stage.color
  let a := stage.alpha
  let ca ← ColorArg config c.a i stage
  let cb ← ColorArg config c.b i stage
  let cc ← ColorArg config c.c i stage
  let cd ← ColorArg config c.d i stage
  let colorExpr ← Op c ca cb cc cd true "" ""
  let aa ← AlphaArg config a.a i stage
  let ab ← AlphaArg config a.b i stage
  let ac ← AlphaArg config a.c i stage
  let ad ← AlphaArg config a.d i stage
  let alphaExpr ← Op a aa ab ac ad false ca cb
  return "\n    // stage " ++ n ++ "\n" ++ stageSample config i ++
    "    vec3 color" ++ n ++ " = " ++ Clamp c colorExpr true ++ ";\n" ++
    "    float alpha" ++ n ++ " = " ++ Clamp a alphaExpr false ++ ";\n" ++
    "    " ++ Reg c.out ++ ".rgb = color" ++ n ++ ";\n" ++
    "    " ++ Reg a.out ++ ".a = alpha" ++ n ++ ";\n"

def alphaTest : String :=
  if config.alphaComp0 = 7 ∧ config.alphaComp1 = 7 ∧ config.alphaOp = 0 then ""
  else
    let h0 := AlphaHalf config.alphaComp0 config.alphaRef0
    let h1 := AlphaHalf config.alphaComp1 config.alphaRef1
    let pass :=
      match config.alphaOp with
      | 0 => h0 ++ " && " ++ h1
      | 1 => h0 ++ " || " ++ h1
      | 2 => h0 ++ " != " ++ h1
      | 3 => h0 ++ " == " ++ h1
      | _ => ""
    "\n    int alphaTest = int(round(clamp(prev.a, 0.0, 1.0) * 255.0));\n" ++
    "    if (!(" ++ pass ++ ")) \x7b\n        discard;\n    \x7d\n"

def fog : String :=
  let fogFn := config.fogType % 8
  if fogFn ≥ 2 then
    "\n    // fog, as Dolphin computes it\n" ++
    "    uint z24 = uint(round(clamp(gl_FragCoord.z, 0.0, 1.0) * 16777215.0));\n" ++
    (if config.fogType.testBit 3 then
      "    float ze = tev.fogParams.x * float(z24) / 16777216.0;\n"
    else
      "    float ze = (tev.fogParams.x * 16777216.0) / " ++
        "(tev.fogParams.z - float(z24 >> uint(tev.fogParams.w)));\n") ++
    "    float fog = clamp(ze - tev.fogParams.y, 0.0, 1.0);\n" ++
    (match fogFn with
      | 4 => "    fog = 1.0 - exp2(-8.0 * fog);\n"
      | 5 => "    fog = 1.0 - exp2(-8.0 * fog * fog);\n"
      | 6 => "    fog = exp2(-8.0 * (1.0 - fog));\n"
      | 7 => "    fog = 1.0 - fog;\n    fog = exp2(-8.0 * fog * fog);\n"
      | _ => "") ++
    "    prev.rgb = mix(clamp(prev.rgb, 0.0, 1.0), tev.fogColor.rgb, fog);\n"
  else ""

def shader : Text := do
  let stages ← (List.range config.stageCount).mapM (stageCode config)
  return kPrelude ++ declarations config ++
    "\nvoid main() \x7b\n" ++
    "    vec4 prev = tev.tevreg[0];\n" ++
    "    vec4 reg0 = tev.tevreg[1];\n" ++
    "    vec4 reg1 = tev.tevreg[2];\n" ++
    "    vec4 reg2 = tev.tevreg[3];\n" ++
    "    ivec2 tevcoord = ivec2(0);\n" ++
    String.join ((List.range (min config.indStageCount 4)).map (indirectSample config)) ++
    String.join stages ++ alphaTest config ++ fog config ++
    "\n    outColor = clamp(prev, 0.0, 1.0);\n" ++
    -- after the alpha test, which tested the TEV's alpha
    (if config.dstAlpha then "    outColor.a = tev.fogColor.w;\n" else "") ++
    "\x7d\n"

def Run : String :=
  if config.stageCount < 1 ∨ config.stageCount > 16 ∨ config.texCoordCount > 8 then ""
  else
    let (s, ok) := (shader config).run true
    if ok then s else ""

end Generator

end TevGlsl

def TevFragmentGlsl (config : TevConfig) : String := TevGlsl.Run config

/-! ## the key -/

def put (v : Nat) : Byte := BitVec.ofNat 8 v

def swapKey (s : TevSwap) : List Byte := [put (s.r ||| s.g <<< 2 ||| s.b <<< 4 ||| s.a <<< 6)]

def combinerKey (k : TevCombiner) : List Byte :=
  [put k.a, put k.b, put k.c, put k.d, put k.op,
    put (k.bias ||| k.scale <<< 2 ||| k.clamp.toNat <<< 4 ||| k.out <<< 5)]

def stageKey (s : TevStage) : List Byte :=
  combinerKey s.color ++ combinerKey s.alpha ++
    [put s.kcolorSel, put s.kalphaSel, put s.texCoord, put s.texMap, put s.channel,
      put (s.rasSwap ||| s.texSwap <<< 2),
      put (s.ind &&& 0xFF), put (s.ind >>> 8 &&& 0xFF), put (s.ind >>> 16 &&& 0x1F)]

def indStageKey (s : IndStage) : List Byte :=
  [put (s.texCoord ||| s.texMap <<< 4), put (s.scaleS ||| s.scaleT <<< 4)]

def TevConfigKey (c : TevConfig) : List Byte :=
  [put c.stageCount, put c.texCoordCount, put c.alphaComp0, put c.alphaRef0, put c.alphaOp,
    put c.alphaComp1, put c.alphaRef1, put c.fogType, put c.dstAlpha.toNat] ++
  (List.range 4).flatMap (fun i => swapKey (c.swapTable i)) ++
  (List.range (min c.stageCount 16)).flatMap (fun i => stageKey (c.stages i)) ++
  [put c.indStageCount] ++
  (List.range (min c.indStageCount 4)).flatMap (fun i => indStageKey (c.indStages i))

end DolTranslator.Gx
