import LockPrune.Command.Folder
import LockPrune.Sink

/-!
# Bundled lockfiles

Two small lockfiles that are always at hand: one of two workspaces with a single dependency
between them and the packages, and one of several workspaces that share packages.

## Main definitions

* `fixtures` — the folder that holds them.
-/

namespace LockPrune.Command

/-- The lines of a lockfile of two workspaces. -/
def minimalLines : List String := [
  "# This file is generated by running \"yarn install\" inside your project.\n",
  "# Manual changes might be lost - proceed with caution!\n",
  "\n",
  "__metadata:\n",
  "  version: 6\n",
  "  cacheKey: 8\n",
  "\n",
  "\"a@workspace:packages/a\":\n",
  "  version: 0.0.0-use.local\n",
  "  resolution: \"a@workspace:packages/a\"\n",
  "  dependencies:\n",
  "    debug: ^1.0.0\n",
  "  languageName: unknown\n",
  "  linkType: soft\n",
  "\n",
  "\"b@workspace:packages/b\":\n",
  "  version: 0.0.0-use.local\n",
  "  resolution: \"b@workspace:packages/b\"\n",
  "  languageName: unknown\n",
  "  linkType: soft\n",
  "\n",
  "\"debug@npm:^1.0.0\":\n",
  "  version: 1.0.0\n",
  "  resolution: \"debug@npm:1.0.0\"\n",
  "  dependencies:\n",
  "    ms: 0.6.2\n",
  "  checksum: edfec8784737afbeea43cc78c3f56c33b88d3e751cc7220ae7a1c5370ff099e7352703275bdb56ea9967f92961231ce0625f8234d82259047303849671153f03\n",
  "  languageName: node\n",
  "  linkType: hard\n",
  "\n",
  "\"minimal@workspace:.\":\n",
  "  version: 0.0.0-use.local\n",
  "  resolution: \"minimal@workspace:.\"\n",
  "  languageName: unknown\n",
  "  linkType: soft\n",
  "\n",
  "\"ms@npm:0.6.2\":\n",
  "  version: 0.6.2\n",
  "  resolution: \"ms@npm:0.6.2\"\n",
  "  checksum: 8c6a5d0f8c6d8e1b2d5ed0e3f6c2e43fd8b3c7ad8a95b2a7b0b36f1f9e1df5a6c1a1b0f5a1f6ad9b3f13c7e8d8c4a7f1e0c2d3b4a5f6e7d8c9b0a1f2e3d4c5b6\n",
  "  languageName: node\n",
  "  linkType: hard\n"]

/-- The lines of a lockfile of several workspaces. -/
def workspacesLines : List String := [
  "# This file is generated by running \"yarn install\" inside your project.\n",
  "# Manual changes might be lost - proceed with caution!\n",
  "\n",
  "__metadata:\n",
  "  version: 6\n",
  "  cacheKey: 8\n",
  "\n",
  "\"@babel/code-frame@npm:^7.0.0, @babel/code-frame@npm:^7.12.13\":\n",
  "  version: 7.22.13\n",
  "  resolution: \"@babel/code-frame@npm:7.22.13\"\n",
  "  dependencies:\n",
  "    \"@babel/highlight\": \"npm:^7.22.13\"\n",
  "    chalk: \"npm:^2.4.2\"\n",
  "  checksum: 22e342c8077c8b77eeb11f554ecca2ba14153f707b85294fcf6070b6f6150aae88a7b7436dd88d8c9289970585f3fe5b9b941c5aa3aa26a6d5a8ef3f292da058\n",
  "  languageName: node\n",
  "  linkType: hard\n",
  "\n",
  "\"@babel/highlight@npm:^7.22.13\":\n",
  "  version: 7.22.20\n",
  "  resolution: \"@babel/highlight@npm:7.22.20\"\n",
  "  dependencies:\n",
  "    chalk: \"npm:^2.4.2\"\n",
  "    js-tokens: \"npm:^4.0.0\"\n",
  "  checksum: f3c3a193afad23434297d88e81d1d6c0c2cf02423de2139ada7ce0a7fc62d8559abf4cc996533c1a9beca7fc990010eb8d544097f75e818ac113bf39ed810aa2\n",
  "  languageName: node\n",
  "  linkType: hard\n",
  "\n",
  "\"api@workspace:apps/api\":\n",
  "  version: 0.0.0-use.local\n",
  "  resolution: \"api@workspace:apps/api\"\n",
  "  dependencies:\n",
  "    \"@babel/code-frame\": \"npm:^7.12.13\"\n",
  "    shared: \"workspace:^\"\n",
  "  languageName: unknown\n",
  "  linkType: soft\n",
  "\n",
  "\"chalk@npm:^2.4.2\":\n",
  "  version: 2.4.2\n",
  "  resolution: \"chalk@npm:2.4.2\"\n",
  "  dependencies:\n",
  "    escape-string-regexp: \"npm:^1.0.5\"\n",
  "  optionalDependencies:\n",
  "    supports-color: \"npm:^5.3.0\"\n",
  "  checksum: 3d1d103433166f6bfe82ac75724951b33769675252d8417317363ef9d54699b7c3b2d46671b772b893a8e50c3ece70c4b933c73c01e81bc60ea4df9b55afa303\n",
  "  languageName: node\n",
  "  linkType: hard\n",
  "\n",
  "\"escape-string-regexp@npm:^1.0.5\":\n",
  "  version: 1.0.5\n",
  "  resolution: \"escape-string-regexp@npm:1.0.5\"\n",
  "  checksum: a968ad453dd0c2724e14a4f20e177aaf32bb384ab41b674a8454afe9a41c5e6fe8903323e0a1052f56289d04bd600f81278edf140b0fcc02f5cac98d0f5b5371\n",
  "  languageName: node\n",
  "  linkType: hard\n",
  "\n",
  "\"js-tokens@npm:^3.0.0 || ^4.0.0, js-tokens@npm:^4.0.0\":\n",
  "  version: 4.0.0\n",
  "  resolution: \"js-tokens@npm:4.0.0\"\n",
  "  checksum: af37d0d913fb56aec6dc0074c163cc71cd23c0b8aad5c2350747b6721d37ba118af35abdd8b33c47ec2800de07dedb16a527ca9c530ee004093e04958bd0cbf2\n",
  "  languageName: node\n",
  "  linkType: hard\n",
  "\n",
  "\"left-pad@npm:1.3.0\":\n",
  "  version: 1.3.0\n",
  "  resolution: \"left-pad@npm:1.3.0\"\n",
  "  checksum: 13fa96e17b70a54836490de22d4bf3fb56e18a4a2c7a5ad1c4ac7f15ba8df8b0de4e4ba28fb1ef48c90bfd8ee4ba0b3b31c0ac3b8ae80f9c4b0fea0f1d2a8dd1\n",
  "  languageName: node\n",
  "  linkType: hard\n",
  "\n",
  "\"shared@workspace:^, shared@workspace:packages/shared\":\n",
  "  version: 0.0.0-use.local\n",
  "  resolution: \"shared@workspace:packages/shared\"\n",
  "  dependencies:\n",
  "    js-tokens: \"npm:^3.0.0 || ^4.0.0\"\n",
  "  languageName: unknown\n",
  "  linkType: soft\n",
  "\n",
  "\"supports-color@npm:^5.3.0\":\n",
  "  version: 5.5.0\n",
  "  resolution: \"supports-color@npm:5.5.0\"\n",
  "  checksum: 6ae5ff319bfbb021f8a86da8ea1f8db52fac8bd4d499492e30ec17095b58af11f0c55f8577390a749b1c4dde691b6a0315dab78f5f54c9b3d83f8fb5905c1c05\n",
  "  languageName: node\n",
  "  linkType: hard\n",
  "\n",
  "\"web@workspace:apps/web\":\n",
  "  version: 0.0.0-use.local\n",
  "  resolution: \"web@workspace:apps/web\"\n",
  "  dependencies:\n",
  "    left-pad: \"npm:1.3.0\"\n",
  "    shared: \"workspace:^\"\n",
  "  languageName: unknown\n",
  "  linkType: soft\n",
  "\n",
  "\"workspaces@workspace:.\":\n",
  "  version: 0.0.0-use.local\n",
  "  resolution: \"workspaces@workspace:.\"\n",
  "  languageName: unknown\n",
  "  linkType: soft\n"]

/-- The folder of the bundled lockfiles. -/
def fixtures : Folder :=
  ⟨.ofList ([("minimal-berry.lock", minimalLines), ("workspaces.yarn.lock", workspacesLines)].map
    fun p => (p.1, Sink.octets (String.join p.2).toList))⟩

end LockPrune.Command
