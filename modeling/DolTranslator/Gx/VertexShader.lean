import DolTranslator.Gx.TevShader

/-!
# The transform unit as GLSL

A vertex configuration as the text of a vertex shader, and the byte string that names the
configuration in the cache of shaders.

* `Channel`   one channel's colour or alpha, as XF lights it;
* `TexGenCode`   one texture coordinate;
* `Run`   the shader; `XfVertexGlsl`;
* `VertexConfigKey`  the key.
-/

namespace DolTranslator.Gx

namespace XfGlsl

open TevGlsl (Text unknown Num)

def kPrelude : String :=
  String.join [
    "#version 460\n",
    "\n",
    "struct XfLight \x7b\n",
    "    vec4 pos;\n",
    "    vec4 dir;\n",
    "    vec4 color;\n",
    "    vec4 cosAtt;\n",
    "    vec4 distAtt;\n",
    "\x7d;\n",
    "\n",
    "layout (std140, binding = 1) uniform XfBlock \x7b\n",
    "    vec4 posMtx[30];\n",
    "    vec4 nrmMtx[30];\n",
    "    vec4 texMtx[30];\n",
    "    vec4 postMtx[60];\n",
    "    vec4 proj[4];\n",
    "    vec4 chanAmb[2];\n",
    "    vec4 chanMat[2];\n",
    "    XfLight lights[8];\n",
    "    ivec4 posMtxIndex;\n",
    "\x7d xf;\n",
    "\n",
    "layout (location = 0) in vec3 aPosition;\n",
    "\n",
    "vec3 xf_rows(int row, vec4 v) \x7b\n",
    "    return vec3(dot(xf.posMtx[row], v), dot(xf.posMtx[row + 1], v),",
    " dot(xf.posMtx[row + 2], v));\n",
    "\x7d\n",
    "\n",
    "// XF's own rounding: a colour leaves the lighting block in 8 bits\n",
    "vec3 xf_byte(vec3 v) \x7b return round(clamp(v, 0.0, 1.0) * 255.0) / 255.0; \x7d\n",
    "float xf_byte(float v) \x7b return round(clamp(v, 0.0, 1.0) * 255.0) / 255.0; \x7d\n",
    "\n",
    "layout (location = 0) out vec4 vColor0;\n",
    "layout (location = 1) out vec4 vColor1;\n"]

section Generator

variable (config : VertexConfig)

def VertexColor (channel : Nat) : String :=
  if channel = 0 then
    if config.hasColor0 then "aColor0" else if config.hasColor1 then "aColor1" else "vec4(1.0)"
  else if config.hasColor0 && config.hasColor1 then "aColor1" else "vec4(1.0)"

/-! ## channels -/

/-- the attenuation of a light, with the diffuse function of its channel -/
def attenuationCode (attenuation diffuse : Nat) : Text :=
  match attenuation with
  | 2 => return "            attn = 1.0;\n"
  | 1 => return "            float cosine = max(0.0, dot(ldir, light.dir.xyz));\n" ++
      "            float cosAttn = dot(light.cosAtt.xyz, vec3(1.0, cosine, cosine * cosine));\n" ++
      "            float distAttn = dot(light.distAtt.xyz, vec3(1.0, dist, dist2));\n" ++
      "            attn = max(0.0, cosAttn) / distAttn;\n"
  | 0 =>
    let distAtt := if diffuse ≠ 0 then "normalize(light.distAtt.xyz)" else "light.distAtt.xyz"
    return "            attn = dot(mvNormal, ldir) >= 0.0 ? " ++
        "max(0.0, dot(mvNormal, light.dir.xyz)) : 0.0;\n" ++
      "            float cosAttn = dot(light.cosAtt.xyz, vec3(1.0, attn, attn * attn));\n" ++
      "            float distAttn = dot(" ++ distAtt ++ ", vec3(1.0, attn, attn * attn));\n" ++
      "            attn = distAttn != 0.0 ? max(0.0, cosAttn) / distAttn : " ++
        "(cosAttn > 0.0 ? 1.0 : 0.0);\n"
  | _ => unknown ""

def dirSetup (attenuation : Nat) : String :=
  "            vec3 ldir = light.pos.xyz - mvPosition;\n" ++
  "            float dist2 = dot(ldir, ldir);\n" ++
  "            float dist = sqrt(dist2);\n" ++
  (if attenuation = 2 then
    "            ldir = dist > 0.0 ? ldir / max(dist, 1e-20) : mvNormal;\n"
  else "            ldir = ldir / dist;\n")

def diffuseCode (diffuse : Nat) : String :=
  match diffuse with
  | 0 => "1.0"
  | 1 => "dot(ldir, mvNormal)"
  | 2 => "max(0.0, dot(ldir, mvNormal))"
  | _ => ""

/-- one channel's colour or alpha -/
def Channel (index : Nat) (alpha : Bool) : Text := do
  let cc := config.channels (index + if alpha then 2 else 0)
  let n := Num index
  let comp := if alpha then ".a" else ".rgb"
  let material :=
    (if cc.material = 1 then VertexColor config index else "xf.chanMat[" ++ n ++ "]") ++ comp
  let target := if alpha then "vColor" ++ n ++ ".a" else "vColor" ++ n ++ ".rgb"
  if !cc.lighting then
    return "    " ++ target ++ " = xf_byte(" ++ material ++ ");\n"
  -- diffuse lighting with no normals: nothing to light by
  if !config.hasNormal ∧ cc.diffuse ≠ 0 then set false
  let ambient :=
    (if cc.ambient = 1 then VertexColor config index else "xf.chanAmb[" ++ n ++ "]") ++ comp
  let type := if alpha then "int" else "ivec3"
  let ftype := if alpha then "float" else "vec3"
  let attn ← attenuationCode cc.attenuation cc.diffuse
  let lo := if alpha then "0" else "ivec3(0)"
  let hi := if alpha then "255" else "ivec3(255)"
  return "    \x7b\n" ++
    "        " ++ type ++ " lighting = " ++ type ++ "(round(" ++ ambient ++ " * 255.0));\n" ++
    "        for (int i = 0; i < 8; i++) \x7b\n" ++
    "            if ((" ++ Num cc.lightMask ++ " & (1 << i)) == 0) \x7b continue; \x7d\n" ++
    "            XfLight light = xf.lights[i];\n" ++
    dirSetup cc.attenuation ++
    "            float attn;\n" ++ attn ++
    "            float diff = " ++ diffuseCode cc.diffuse ++ ";\n" ++
    "            lighting += " ++ type ++ "(round(attn * diff * light.color" ++ comp ++
      " * 255.0));\n" ++
    "        \x7d\n" ++
    "        " ++ type ++ " lacc = clamp(lighting, " ++ lo ++ ", " ++ hi ++ ");\n" ++
    "        " ++ type ++ " material = " ++ type ++ "(round(" ++ material ++ " * 255.0));\n" ++
    "        " ++ target ++ " = " ++ ftype ++ "((material * (lacc + (lacc >> 7))) >> 8) / 255.0;\n" ++
    "    \x7d\n"

/-! ## texture coordinates -/

abbrev Attempt := OptionT (StateM Bool)

def giveUp : Attempt String := do
  set false
  failure

/-- what a coordinate is made from -/
def texGenInput (source : Nat) : Attempt String :=
  if 4 ≤ source ∧ source ≤ 11 then
    if config.texCoords (source - 4) then
      return "vec4(aTex" ++ Num (source - 4) ++ ", 1.0, 1.0)"
    else giveUp
  else if source = 0 then return "vec4(aPosition, 1.0)"
  else if source = 1 then if config.hasNormal then return "vec4(aNormal, 1.0)" else giveUp
  else if source = 19 ∨ source = 20 then
    return "vec4(" ++ VertexColor config (if source = 20 then 1 else 0) ++ ".rgb, 1.0)"
  else giveUp

/-- through the texture matrix -/
def texGenMatrix (tg : TexGen) (n : String) : Attempt String := do
  if tg.type = 0 ∨ tg.type = 1 then
    let product ←
      if tg.matrix = kIdentity then
        pure ("    vec3 tc" ++ n ++ "t = tc" ++ n ++ ".xyz;\n")
      else if tg.matrix < 10 then
        let r := Num (tg.matrix * 3)
        pure ("    vec3 tc" ++ n ++ "t = vec3(dot(xf.texMtx[" ++ r ++ "], tc" ++ n ++
          "), dot(xf.texMtx[" ++ r ++ " + 1], tc" ++ n ++ "), dot(xf.texMtx[" ++ r ++ " + 2], tc" ++
          n ++ "));\n")
      else giveUp
    return product ++ if tg.type = 1 then "    tc" ++ n ++ "t.z = 1.0;\n" else ""
  else if tg.type = 10 then return "    vec3 tc" ++ n ++ "t = vec3(tc" ++ n ++ ".xy, 1.0);\n"
  else giveUp

/-- through the post-transform matrix -/
def texGenPost (tg : TexGen) (n : String) : Attempt String :=
  if config.dualTexture ∧ tg.postMatrix ≠ kIdentity then
    if tg.postMatrix ≥ 20 then giveUp
    else
      let r := Num (tg.postMatrix * 3)
      return "    vec4 tc" ++ n ++ "p4 = vec4(tc" ++ n ++ "t, 1.0);\n" ++
        "    tc" ++ n ++ "t = vec3(dot(xf.postMtx[" ++ r ++ "], tc" ++ n ++ "p4), dot(xf.postMtx[" ++
        r ++ " + 1], tc" ++ n ++ "p4), dot(xf.postMtx[" ++ r ++ " + 2], tc" ++ n ++ "p4));\n"
  else return ""

def TexGenCode (i : Nat) : Attempt String := do
  let tg := config.texGens i
  let n := Num i
  let src ← texGenInput config tg.source
  let transformed ← texGenMatrix tg n
  let post ← texGenPost config tg n
  return "    vec4 tc" ++ n ++ " = " ++ src ++ ";\n" ++ transformed ++
    (if config.dualTexture && tg.normalize then
      "    tc" ++ n ++ "t = normalize(tc" ++ n ++ "t);\n" else "") ++
    post ++
    -- a q of 0: GX keeps s and t, halved and clamped, rather than dividing by it
    (if tg.type ≠ 10 then
      "    if (tc" ++ n ++ "t.z == 0.0) \x7b tc" ++ n ++ "t = vec3(clamp(tc" ++ n ++
        "t.xy / 2.0, -1.0, 1.0), 1.0); \x7d\n"
    else "") ++
    "    vTexCoord" ++ n ++ " = tc" ++ n ++ "t;\n"

/-! ## the shader -/

def declarations : String :=
  (if config.hasNormal then "layout (location = 1) in vec3 aNormal;\n" else "") ++
  (if config.hasColor0 then "layout (location = 2) in vec4 aColor0;\n" else "") ++
  (if config.hasColor1 then "layout (location = 3) in vec4 aColor1;\n" else "") ++
  String.join ((List.range 8).map fun t =>
    if config.texCoords t then
      "layout (location = " ++ Num (4 + t) ++ ") in vec2 aTex" ++ Num t ++ ";\n"
    else "") ++
  (if config.indexedPosMtx then "layout (location = 12) in float aPosMtxIndex;\n" else "") ++
  String.join ((List.range config.texGenCount).map fun t =>
    "layout (location = " ++ Num (2 + t) ++ ") out vec3 vTexCoord" ++ Num t ++ ";\n")

def position : String :=
  (if config.indexedPosMtx then "    int row = int(aPosMtxIndex);\n"
    else "    int row = xf.posMtxIndex.x;\n") ++
  "    vec3 mvPosition = xf_rows(row, vec4(aPosition, 1.0));\n" ++
  (if config.hasNormal then
    "    vec3 mvNormal = normalize(vec3(dot(xf.nrmMtx[row].xyz, aNormal), " ++
      "dot(xf.nrmMtx[row + 1].xyz, aNormal), dot(xf.nrmMtx[row + 2].xyz, aNormal)));\n"
  else "    vec3 mvNormal = vec3(0.0, 0.0, 1.0);\n") ++
  "    vec4 view = vec4(mvPosition, 1.0);\n" ++
  "    vec4 clip = vec4(dot(xf.proj[0], view), dot(xf.proj[1], view), dot(xf.proj[2], view), " ++
    "dot(xf.proj[3], view));\n" ++
  "    // GX's clip depth runs -w..0; a 0..1 depth range wants 0..w\n" ++
  "    clip.z += clip.w;\n" ++
  "    gl_Position = clip;\n\n"

/-- channels that the game left off still reach the TEV -/
def channelsOff : String :=
  (if config.channelCount = 0 then
    if config.hasColor0 then "    vColor0 = aColor0;\n" else "    vColor0 = vec4(1.0);\n"
  else "") ++
  (if config.channelCount < 2 then
    if config.hasColor1 then "    vColor1 = aColor1;\n" else "    vColor1 = vColor0;\n"
  else "")

def channelCode (c : Nat) : Text := do
  let color ← Channel config c false
  let alpha ← Channel config c true
  return color ++ alpha

def shader : Text := do
  let channels ← (List.range config.channelCount).mapM (channelCode config)
  let texGens ← (List.range config.texGenCount).mapM fun t => do
    return (← (TexGenCode config t).run).getD ""
  return kPrelude ++ declarations config ++
    "\nvoid main() \x7b\n" ++ position config ++
    "    vColor0 = vec4(0.0);\n    vColor1 = vec4(0.0);\n" ++
    String.join channels ++ channelsOff config ++ String.join texGens ++ "\x7d\n"

def Run : String :=
  if config.channelCount > 2 ∨ config.texGenCount > 8 then ""
  else
    let (s, ok) := (shader config).run true
    if ok then s else ""

end Generator

end XfGlsl

def XfVertexGlsl (config : VertexConfig) : String := XfGlsl.Run config

/-! ## the key -/

def texCoordBits (texCoords : Nat → Bool) : Nat :=
  (List.range 8).foldl (fun v t => v ||| (texCoords t).toNat <<< t) 0

def channelKey (ch : ColorChannel) : List Byte :=
  [put (ch.material ||| ch.ambient <<< 1 ||| ch.lighting.toNat <<< 2 ||| ch.diffuse <<< 3 |||
      ch.attenuation <<< 5),
    put ch.lightMask]

def texGenKey (t : TexGen) : List Byte :=
  [put t.type, put t.source, put t.matrix, put t.normalize.toNat, put t.postMatrix]

def VertexConfigKey (c : VertexConfig) : List Byte :=
  [put (c.hasNormal.toNat ||| c.hasColor0.toNat <<< 1 ||| c.hasColor1.toNat <<< 2 |||
      c.indexedPosMtx.toNat <<< 3 ||| c.dualTexture.toNat <<< 4),
    put (texCoordBits c.texCoords), put c.channelCount, put c.texGenCount] ++
  (List.range 4).flatMap (fun i => channelKey (c.channels i)) ++
  (List.range (min c.texGenCount 8)).flatMap (fun i => texGenKey (c.texGens i))

end DolTranslator.Gx
